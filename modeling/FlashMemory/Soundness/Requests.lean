import FlashMemory.Soundness.PageCache
import FlashMemory.Model.Server
import Mathlib.Data.List.GetD

/-! # What the scheduler guarantees about requests

The allocators of the scheduler hand out pages and indices; the engine relies on them. A page belongs
to one live request at a time, a prompt fits on the pages it is admitted with, and a chunk forms only
on a page that the request has. Under these rules the locations of a request are distinct locations of
the mirror, and no two live requests share one.
-/

namespace FlashMemory

open List Engine

/-! ## Locations -/

namespace Request

variable {req : Request} {cfg : Config} {number other : ℕ}

theorem loc_page (req : Request) (number : ℕ) :
    req.loc number / c4PageSize = req.pages.getD (number / c4PageSize) 0 := by
  simp only [loc, c4PageSize]
  omega

theorem loc_page_mem (room : number < c4PageSize * req.pages.length) :
    req.loc number / c4PageSize ∈ req.pages := by
  have index : number / c4PageSize < req.pages.length := Nat.div_lt_of_lt_mul room
  rw [loc_page, getD_eq_getElem _ _ index]
  exact getElem_mem index

theorem loc_inj (distinct : req.pages.Nodup) (room : number < c4PageSize * req.pages.length)
    (room' : other < c4PageSize * req.pages.length) (same : req.loc number = req.loc other) :
    number = other := by
  have index : number / c4PageSize < req.pages.length := Nat.div_lt_of_lt_mul room
  have index' : other / c4PageSize < req.pages.length := Nat.div_lt_of_lt_mul room'
  have pages := congrArg (· / c4PageSize) same
  simp only [loc_page, getD_eq_getElem _ _ index, getD_eq_getElem _ _ index'] at pages
  have pageNumbers := (distinct.getElem_inj_iff).mp pages
  have offsets := congrArg (· % c4PageSize) same
  simp only [loc, c4PageSize] at offsets pageNumbers
  omega

theorem prompt_page_mem (room : req.promptLen ≤ 4 * c4PageSize * req.pages.length)
    (early : number < req.prefillChunks) : req.loc number / c4PageSize ∈ req.promptPages := by
  simp only [prefillChunks, c4PageSize] at early room
  have index : number / c4PageSize < req.pages.length := by
    simp only [c4PageSize]
    omega
  have inside : number / c4PageSize < (req.promptLen + (4 * c4PageSize - 1)) / (4 * c4PageSize) := by
    simp only [c4PageSize]
    omega
  rw [loc_page, getD_eq_getElem _ _ index]
  exact mem_take_iff_getElem.mpr ⟨_, lt_min inside index, rfl⟩

/-- Different requests that share no page. -/
def Apart (first second : Request) : Prop :=
  first.id ≠ second.id ∧ ∀ page ∈ first.pages, page ∉ second.pages

instance apart_symm : Std.Symm Apart :=
  ⟨fun _ _ ⟨ids, pages⟩ => ⟨ids.symm, fun page right left => pages page left right⟩⟩

/-- Taking a page moves no chunk. -/
theorem loc_takePage (page : ℕ) (room : number < c4PageSize * req.pages.length) :
    ({ req with pages := req.pages ++ [page] } : Request).loc number = req.loc number := by
  have index : number / c4PageSize < req.pages.length := Nat.div_lt_of_lt_mul room
  simp only [loc, getD_append _ _ _ _ index]

/-- The chunks of a request are on distinct pages of the mirror. -/
structure Layout (cfg : Config) (req : Request) : Prop where
  distinct : req.pages.Nodup
  inMirror : ∀ page ∈ req.pages, page < cfg.nLogicalPages
  room : req.formed ≤ c4PageSize * req.pages.length
  prompt : req.prefillChunks ≤ req.formed

namespace Layout

variable (layout : Layout cfg req)
include layout

theorem page_mem (formed : number < req.formed) : req.loc number / c4PageSize ∈ req.pages :=
  loc_page_mem (Nat.lt_of_lt_of_le formed layout.room)

theorem loc_lt (formed : number < req.formed) : req.loc number < cfg.mirrorChunks :=
  chunk_lt_of_page (layout.inMirror _ (layout.page_mem formed)) rfl

theorem takePage {page : ℕ} (bound : page < cfg.nLogicalPages)
    (new : page ∉ req.pages) : Layout cfg { req with pages := req.pages ++ [page] } := by
  have room := layout.room
  refine ⟨?_, ?_, ?_, layout.prompt⟩
  · exact layout.distinct.append (nodup_singleton page) (disjoint_singleton.mpr new)
  · exact forall_mem_append.mpr ⟨layout.inMirror, forall_mem_singleton.mpr bound⟩
  · simp only [length_append, length_singleton, Nat.mul_add]
    omega

theorem grow (room : req.formed < c4PageSize * req.pages.length) :
    Layout cfg { req with formed := req.formed + 1 } :=
  ⟨layout.distinct, layout.inMirror, room, Nat.le_succ_of_le layout.prompt⟩

end Layout

end Request

/-! ## The live requests -/

namespace Server

variable {cfg : Config} {server : Server} {req other : Request}

/-- Pages belong to one live request at a time, and a request forms a chunk only on a page it has. -/
def Admissible (cfg : Config) (server : Server) : ServerOp → Prop
  | .commit _ promptLen pages => pages.Nodup ∧ promptLen ≤ 4 * c4PageSize * pages.length ∧
      ∀ page ∈ pages, page < cfg.nLogicalPages ∧ ∀ req ∈ server.live, page ∉ req.pages
  | .takePage _ page => page < cfg.nLogicalPages ∧ ∀ req ∈ server.live, page ∉ req.pages
  | .decode batch => ∀ req ∈ server.live, .forms req.id ∈ batch →
      req.formed < c4PageSize * req.pages.length
  | .recallResident kept => Engine.LocsInRange cfg kept
  | .release _ | .finish _ => True

instance decidableAdmissible (cfg : Config) (server : Server) (op : ServerOp) :
    Decidable (Admissible cfg server op) := by
  cases op <;> dsimp only [Admissible] <;> infer_instance

structure Books (cfg : Config) (server : Server) : Prop where
  numbered : ∀ req ∈ server.live, req.id < server.nextId
  apart : server.live.Pairwise Request.Apart
  layout : ∀ req ∈ server.live, req.Layout cfg

namespace Books

theorem init (cfg : Config) : Books cfg Server.init where
  numbered _ mem := by contradiction
  apart := List.Pairwise.nil
  layout _ mem := by contradiction

section

variable (books : Books cfg server)

include books

theorem eq_of_id (mem : req ∈ server.live) (mem' : other ∈ server.live) (same : req.id = other.id) : req = other := by
  by_contra different
  exact (books.apart.forall mem mem' different).1 same

theorem eq_of_page (mem : req ∈ server.live) (mem' : other ∈ server.live) {page : ℕ} (left : page ∈ req.pages)
    (right : page ∈ other.pages) : req = other := by
  by_contra different
  exact (books.apart.forall mem mem' different).2 page left right

theorem commit {reqPoolIdx promptLen : ℕ} {pages : List ℕ}
    (admissible : Admissible cfg server (.commit reqPoolIdx promptLen pages)) :
    Books cfg (server.step cfg (.commit reqPoolIdx promptLen pages)) := by
  obtain ⟨distinct, room, each⟩ := admissible
  refine ⟨?_, ?_, ?_⟩
  · refine forall_mem_cons.mpr ⟨Nat.lt_succ_self _, fun req mem => ?_⟩
    exact Nat.lt_succ_of_lt (books.numbered req mem)
  · refine List.Pairwise.cons (fun req mem => ⟨?_, fun page mine => (each page mine).2 req mem⟩) books.apart
    exact (books.numbered req mem).ne'
  · refine forall_mem_cons.mpr ⟨⟨distinct, fun page mine => (each page mine).1, ?_, le_rfl⟩, books.layout⟩
    simp only [c4PageSize] at room ⊢
    omega

theorem takePage {id page : ℕ} (admissible : Admissible cfg server (.takePage id page)) :
    Books cfg (server.step cfg (.takePage id page)) := by
  obtain ⟨bound, new⟩ := admissible
  refine ⟨?_, ?_, ?_⟩
  · intro grown mem
    obtain ⟨req, present, rfl⟩ := mem_map.mp mem
    split_ifs <;> exact books.numbered req present
  · refine pairwise_map.mpr (books.apart.imp_of_mem fun {first second} mem mem' apart => ?_)
    have left := new first mem
    have right := new second mem'
    split_ifs with isFirst isSecond isSecond
    · exact absurd (isFirst.trans isSecond.symm) apart.1
    · refine ⟨apart.1, forall_mem_append.mpr ⟨apart.2, forall_mem_singleton.mpr right⟩⟩
    · refine ⟨apart.1, fun other mine => ?_⟩
      simp only [mem_append, mem_singleton, not_or]
      exact ⟨apart.2 other mine, fun same => left (same ▸ mine)⟩
    · exact apart
  · intro grown mem
    obtain ⟨req, present, rfl⟩ := mem_map.mp mem
    split_ifs
    · exact (books.layout req present).takePage bound (new req present)
    · exact books.layout req present

theorem decode {batch : List BatchRow} (admissible : Admissible cfg server (.decode batch)) :
    Books cfg (server.step cfg (.decode batch)) := by
  refine ⟨?_, ?_, ?_⟩
  · intro grown mem
    obtain ⟨req, present, rfl⟩ := mem_map.mp mem
    split_ifs <;> exact books.numbered req present
  · refine pairwise_map.mpr (books.apart.imp fun apart => ?_)
    split_ifs <;> exact apart
  · intro grown mem
    obtain ⟨req, present, rfl⟩ := mem_map.mp mem
    split_ifs with forms
    · exact (books.layout req present).grow (admissible req present forms)
    · exact books.layout req present

theorem finish (id : ℕ) : Books cfg (server.step cfg (.finish id)) := by
  have kept := fun req (mem : req ∈ server.live.filter (·.id ≠ id)) => (mem_filter.mp mem).1
  exact ⟨fun req mem => books.numbered req (kept req mem), books.apart.filter _,
    fun req mem => books.layout req (kept req mem)⟩

/-- The bookkeeping does not depend on the engine. -/
theorem withEngine (engine : Engine Stamp) : Books cfg { server with engine := engine } :=
  ⟨books.numbered, books.apart, books.layout⟩

end

end Books

/-! ## The rows of a decode step -/

section Decode

variable {batch : List BatchRow} {row : DecodeRow (ℕ → Stamp)} {number : ℕ}

/-- A row that stores something is the next row of a request that forms a chunk. -/
theorem forms_of_row (rowMember : row ∈ server.rows batch) (positive : 0 < row.c4OutLoc) :
    ∃ req ∈ server.live, .forms req.id ∈ batch ∧ row = req.nextRow := by
  obtain ⟨kind, present, shape⟩ := mem_filterMap.mp rowMember
  cases kind with
  | forms id =>
    obtain ⟨req, found, rfl⟩ := Option.map_eq_some_iff.mp shape
    have sameId : req.id = id := by simpa using find?_some found
    exact ⟨req, mem_of_find?_eq_some found, sameId ▸ present, rfl⟩
  | idle reqPoolIdx seqLen =>
    obtain rfl := Option.some.inj shape
    exact absurd positive (lt_irrefl 0)

namespace Books

theorem nextRow_mem (books : Books cfg server) (mem : req ∈ server.live)
    (forms : .forms req.id ∈ batch) : req.nextRow ∈ server.rows batch := by
  refine mem_filterMap.mpr ⟨_, forms, ?_⟩
  have present : (server.live.find? (·.id = req.id)).isSome :=
    find?_isSome.mpr ⟨req, mem, decide_eq_true rfl⟩
  obtain ⟨found, shape⟩ := Option.isSome_iff_exists.mp present
  have sameId : found.id = req.id := by simpa using find?_some shape
  rw [row?, shape, books.eq_of_id (mem_of_find?_eq_some shape) mem sameId]
  rfl

section

variable (books : Books cfg server) (admissible : Admissible cfg server (.decode batch))

include books admissible

/-- A chunk of a live request is stored only by the row that forms it. -/
theorem row_of_loc (rowMember : row ∈ server.rows batch) (positive : 0 < row.c4OutLoc) (mem : req ∈ server.live)
    (room : number < c4PageSize * req.pages.length) (stored : row.c4OutLoc = req.loc number) :
    .forms req.id ∈ batch ∧ row = req.nextRow ∧ number = req.formed := by
  obtain ⟨former, present, forms, rfl⟩ := forms_of_row rowMember positive
  have formerRoom := admissible former present forms
  have same : former.loc former.formed = req.loc number := Int.ofNat_inj.mp stored
  obtain rfl : req = former := books.eq_of_page mem present (Request.loc_page_mem room)
    (same ▸ Request.loc_page_mem formerRoom)
  exact ⟨forms, rfl, (Request.loc_inj (books.layout req mem).distinct formerRoom room same).symm⟩

/-- A row enters the column of a live request's chunk only if it forms that chunk. -/
theorem row_of_column (rowMember : row ∈ server.rows batch) (mem : req ∈ server.live)
    (room : number < c4PageSize * req.pages.length) (column : server.engine.stepCol cfg row = req.loc number) :
    .forms req.id ∈ batch ∧ row = req.nextRow ∧ server.engine.DecodeValid cfg (atLayer row 0) ∧
      number = req.formed := by
  have inMirror := chunk_lt_of_page ((books.layout req mem).inMirror _ (Request.loc_page_mem room)) rfl
  obtain ⟨valid, stored⟩ := c4OutLoc_of_decodeCol inMirror column
  obtain ⟨forms, next, last⟩ := books.row_of_loc admissible rowMember valid.1 mem room stored
  exact ⟨forms, next, valid, last⟩

/-- The chunks formed before the step keep their entries. -/
theorem decode_kept (mem : req ∈ server.live) (formed : number < req.formed) :
    (server.engine.storeDecodeAllLayers cfg (server.rows batch)).chunkCellLut 0 (req.loc number) =
      server.engine.chunkCellLut 0 (req.loc number) := by
  rcases storeDecodeAllLayers_lut_cases cfg server.engine (server.rows batch) 0 (req.loc number)
    with ⟨_, row, rowMember, column, _⟩ | ⟨_, value⟩
  · have room := Nat.lt_of_lt_of_le formed (books.layout req mem).room
    have := (books.row_of_column admissible rowMember mem room column).2.2.2
    omega
  · exact value

end

end Books

end Decode

/-! ## Admission -/

section Admit

variable {engine : Engine Stamp}

theorem commitEngine_lut : (commitEngine cfg engine req).chunkCellLut = (engine.clearCols
    (pageCols cfg (mirrorPages cfg (req.promptPages.map Int.ofNat)))).chunkCellLut := by
  simp only [commitEngine, registerDecodeReq]
  split_ifs <;> rfl

theorem mem_mirrorPages {pages : List ℕ} {page : ℕ} (bound : page < cfg.nLogicalPages) :
    page ∈ mirrorPages cfg (pages.map Int.ofNat) ↔ page ∈ pages := by
  rw [mirrorPages, mem_filter, mem_uniqueChunks]
  constructor
  · rintro ⟨mem, _⟩
    obtain ⟨other, present, same⟩ := mem_map.mp mem
    exact Int.ofNat_inj.mp same ▸ present
  · exact fun mem => ⟨mem_map_of_mem mem, decide_eq_true bound⟩

end Admit

end Server

end FlashMemory
