import FlashMemory.Model.TrainingDump
import Mathlib.Data.List.Induction
import Mathlib.Data.List.Nodup
import Mathlib.Data.Nat.Basic

/-! # The merge pairs lines and requests by position

The line at a position of the second directory has the compressed K of the request at the same position if no earlier
request is missing and the lines are in the order of the requests. Otherwise a pickle gets the compressed K of another
document. -/

namespace FlashMemory.DumpDir

open List

variable {κ ρ : Type*} {encode : ℕ → ρ → ℕ → Option κ} {requests : List (CompkRequest ρ)} {flushes : List Flush}
  {compkDir dir : DumpDir κ} {metaLinesAll : List MetaEntry} {request : CompkRequest ρ}

/-! ## The second directory -/

/-- The flush writes a metadata line. -/
def Flush.Written (flush : Flush) : Prop := 2 < flush.firstNBlocks ∧ flush.appended = true

instance (flush : Flush) : Decidable flush.Written := inferInstanceAs (Decidable (_ ∧ _))

/-- The flushes that write a line. -/
def writtenLines (flushes : List Flush) : List Flush := flushes.filter fun flush => decide flush.Written

def Flush.entry (flush : Flush) : MetaEntry := ⟨flush.docIdx, flush.rid, flush.compkShapes⟩

/-- What the server dumps for a request. -/
def compkOf (encode : ℕ → ρ → ℕ → Option κ) (requests : List (CompkRequest ρ)) (request layer : ℕ) : Option κ :=
  requests[request]?.bind fun request => encode request.index request.response layer

theorem compkOf_of_eq_some {position : ℕ} (isRequest : requests[position]? = some request) :
    compkOf encode requests position = encode request.index request.response := by
  funext layer
  rw [compkOf, isRequest]
  rfl

theorem compkOf_of_eq_none {position : ℕ} (missing : requests[position]? = none) :
    compkOf encode requests position = fun _ => none := by
  funext layer
  rw [compkOf, missing]
  rfl

theorem secondRound_snoc (flush : Flush) : secondRound encode requests (flushes ++ [flush]) =
    if flush.firstNBlocks ≤ 2 then secondRound encode requests flushes
    else
      { pickles := Function.update (secondRound encode requests flushes).pickles flush.docIdx
          (some (compkOf encode requests flush.request))
        metadata := if flush.appended then (secondRound encode requests flushes).metadata ++ [flush.entry]
          else (secondRound encode requests flushes).metadata } := by
  rw [secondRound, foldl_append]
  rfl

theorem secondRound_metadata : (secondRound encode requests flushes).metadata =
    (writtenLines flushes).map Flush.entry := by
  induction flushes using List.reverseRecOn with
  | nil => rfl
  | append_singleton flushes flush ih =>
    rw [secondRound_snoc, writtenLines, filter_append, map_append, ← writtenLines, ← ih]
    rcases Nat.lt_or_ge 2 flush.firstNBlocks with long | short
    · rw [if_neg (Nat.not_le.mpr long)]
      cases appended : flush.appended <;> simp [Flush.Written, long, appended]
    · rw [if_pos short]
      simp [Flush.Written, Nat.not_lt.mpr short]

theorem secondRound_pickles (distinct : (flushes.map Flush.docIdx).Nodup) {flush : Flush} (mem : flush ∈ flushes)
    (long : 2 < flush.firstNBlocks) :
    (secondRound encode requests flushes).pickles flush.docIdx = some (compkOf encode requests flush.request) := by
  induction flushes using List.reverseRecOn with
  | nil => cases mem
  | append_singleton flushes last ih =>
    rw [map_append, nodup_append] at distinct
    obtain ⟨earlier, -, apart⟩ := distinct
    rw [secondRound_snoc]
    rcases mem_append.mp mem with old | new
    · have different : flush.docIdx ≠ last.docIdx := apart _ (mem_map_of_mem old) _ (by simp)
      split
      · exact ih earlier old
      · exact (Function.update_of_ne different _ _).trans (ih earlier old)
    · obtain rfl := mem_singleton.mp new
      rw [if_neg (Nat.not_le.mpr long)]
      exact Function.update_self ..

/-! ## The merge -/

/-- The pickles that a line may change. -/
private theorem mergeLine_pickles_of_ne {line : MetaEntry × ℕ} {file : ℕ}
    (other : ∀ request ∈ requests[line.2]?, request.r1File ≠ file) :
    (mergeLine requests metaLinesAll compkDir dir line).pickles file = dir.pickles file := by
  unfold mergeLine
  split
  · rfl
  · rename_i request isRequest
    split
    · rfl
    · split
      · exact Function.update_of_ne (other request isRequest).symm _ _
      · rfl

private theorem exists_lineIdx {file : ℕ} (named : ∃ entry ∈ metaLinesAll, entry.docIndex = file) :
    ∃ lineIdx, lineIdx? metaLinesAll file = some lineIdx := by
  obtain ⟨entry, mem, isFile⟩ := named
  obtain ⟨i, inside, rfl⟩ := getElem_of_mem mem
  have kept : (metaLinesAll[i], i) ∈ metaLinesAll.zipIdx.filter (·.1.docIndex = file) := by
    rw [mem_filter, mk_mem_zipIdx_iff_getElem?]
    exact ⟨getElem?_eq_getElem inside, decide_eq_true isFile⟩
  rw [lineIdx?, getLast?_eq_some_getLast (ne_nil_of_mem kept)]
  exact ⟨_, rfl⟩

/-- A line changes the pickle of the request at its position. -/
private theorem mergeLine_pickles {line : MetaEntry × ℕ} (isRequest : requests[line.2]? = some request)
    (named : ∃ entry ∈ metaLinesAll, entry.docIndex = request.r1File) {compkData : ℕ → Option κ}
    (dumped : compkDir.pickles line.1.docIndex = some compkData) :
    (mergeLine requests metaLinesAll compkDir dir line).pickles request.r1File =
      (dir.pickles request.r1File).map (replaceCompk compkData) := by
  obtain ⟨lineIdx, found⟩ := exists_lineIdx named
  simp only [mergeLine, isRequest, found, dumped]
  cases present : dir.pickles request.r1File with
  | none => exact present
  | some data => exact Function.update_self ..

theorem foldl_mergeLine_pickles_of_ne {lines : List (MetaEntry × ℕ)} {file : ℕ}
    (other : ∀ line ∈ lines, ∀ request ∈ requests[line.2]?, request.r1File ≠ file) :
    (lines.foldl (mergeLine requests metaLinesAll compkDir) dir).pickles file = dir.pickles file := by
  induction lines generalizing dir with
  | nil => rfl
  | cons line lines ih =>
    rw [foldl_cons, ih (forall_mem_cons.mp other).2]
    exact mergeLine_pickles_of_ne (other line mem_cons_self)

/-- A pickle is named by one request only. -/
private theorem position_inj (distinct : (requests.map CompkRequest.r1File).Nodup) {i j : ℕ}
    {first second : CompkRequest ρ} (isFirst : requests[i]? = some first) (isSecond : requests[j]? = some second)
    (same : first.r1File = second.r1File) : i = j := by
  have atI : (requests.map CompkRequest.r1File)[i]? = some first.r1File := by rw [getElem?_map, isFirst]; rfl
  have atJ : (requests.map CompkRequest.r1File)[j]? = some first.r1File := by rw [getElem?_map, isSecond, same]; rfl
  obtain ⟨insideI, isI⟩ := List.getElem?_eq_some_iff.mp atI
  obtain ⟨insideJ, isJ⟩ := List.getElem?_eq_some_iff.mp atJ
  exact distinct.getElem_inj_iff.mp (isI.trans isJ.symm)

/-- The merge replaces the compressed K of a pickle by that of the line at the position of its request. -/
theorem merge_pickles (distinct : (requests.map CompkRequest.r1File).Nodup) {position : ℕ} {line : MetaEntry}
    (isLine : compkDir.metadata[position]? = some line) (isRequest : requests[position]? = some request)
    (named : ∃ entry ∈ dir.metadata, entry.docIndex = request.r1File) {compkData : ℕ → Option κ}
    (dumped : compkDir.pickles line.docIndex = some compkData) :
    (merge requests compkDir dir).pickles request.r1File = (dir.pickles request.r1File).map
      (replaceCompk compkData) := by
  obtain ⟨inside, rfl⟩ := List.getElem?_eq_some_iff.mp isLine
  have elsewhere : ∀ other : MetaEntry × ℕ, other.2 ≠ position → ∀ request' ∈ requests[other.2]?,
      request'.r1File ≠ request.r1File :=
    fun other apart request' isOther same => apart (position_inj distinct isOther isRequest same)
  have split : compkDir.metadata.zipIdx = (compkDir.metadata.take position).zipIdx ++
      (compkDir.metadata[position], position) :: (compkDir.metadata.drop (position + 1)).zipIdx (position + 1) := by
    conv_lhs => rw [← take_append_drop position compkDir.metadata, zipIdx_append, drop_eq_getElem_cons inside]
    rw [zipIdx_cons, length_take, Nat.zero_add, Nat.min_eq_left (Nat.le_of_lt inside)]
  rw [merge, split, foldl_append, foldl_cons, foldl_mergeLine_pickles_of_ne, mergeLine_pickles isRequest named dumped,
    foldl_mergeLine_pickles_of_ne]
  · intro other mem
    have := (mem_zipIdx mem).2.1
    exact elsewhere other (by rw [length_take] at this; omega)
  · intro other mem
    have := (mem_zipIdx mem).1
    exact elsewhere other (by omega)

/-- A pickle without a line is kept. -/
theorem merge_pickles_of_ne {file : ℕ}
    (other : ∀ position < compkDir.metadata.length, ∀ request ∈ requests[position]?, request.r1File ≠ file) :
    (merge requests compkDir dir).pickles file = dir.pickles file := by
  apply foldl_mergeLine_pickles_of_ne
  intro line mem
  have := (mem_zipIdx mem).2.1
  exact other line.2 (by omega)

/-! ## A batch -/

variable {client : FirstRound ρ} {currentDocCounter : ℕ}

/-- The request is built from the document and the response of a metadata line. -/
def BuiltFrom (client : FirstRound ρ) (entry : MetaEntry) (request : CompkRequest ρ) : Prop :=
  request.r1File = entry.docIndex ∧ client.ridToIndex entry.rid = some request.index ∧
    client.ridToResponse entry.rid = some request.response

theorem mem_compkRequests {lines : List MetaEntry} :
    request ∈ compkRequests client lines ↔ ∃ entry ∈ lines, BuiltFrom client entry request := by
  rw [compkRequests, mem_filterMap]
  refine exists_congr fun entry => and_congr_right fun _ => ?_
  split
  · rename_i index response isIndex isResponse
    rw [BuiltFrom, isIndex, isResponse, Option.some.injEq, Option.some.injEq, Option.some.injEq]
    constructor
    · rintro rfl
      exact ⟨rfl, rfl, rfl⟩
    · rintro ⟨isFile, rfl, rfl⟩
      rw [← isFile]
  · rename_i missing
    constructor
    · nofun
    · rintro ⟨-, isIndex, isResponse⟩
      exact (missing _ _ isIndex isResponse).elim

/-- The requests are in the order of the lines. -/
private theorem compkRequests_sublist (lines : List MetaEntry) :
    ((compkRequests client lines).map CompkRequest.r1File).Sublist (lines.map MetaEntry.docIndex) := by
  induction lines with
  | nil => exact .slnil
  | cons entry lines ih =>
    rw [compkRequests, filterMap_cons]
    split
    · exact ih.cons _
    · rename_i request isRequest
      split at isRequest
      · obtain rfl := Option.some.inj isRequest
        exact ih.cons_cons _
      · cases isRequest

/-- The line at a position is that of a request for the document and the response of the request at the same position,
if the pickle of that one exists. -/
def InOrder (requests : List (CompkRequest ρ)) (dir : DumpDir κ) (flushes : List Flush) : Prop :=
  ∀ (position : ℕ) flush request, (writtenLines flushes)[position]? = some flush →
    requests[position]? = some request → dir.pickles request.r1File ≠ none →
    ∀ sent ∈ requests[flush.request]?, sent.index = request.index ∧ sent.response = request.response

/-- It is so if the first requests, and no others, have written their lines one after the other. -/
theorem inOrder_of_range {count : ℕ} (order : (writtenLines flushes).map Flush.request = List.range count) :
    InOrder requests dir flushes := by
  intro position flush request isLine isRequest _ sent isSent
  have known := congrArg (·[position]?) order
  simp only [getElem?_map, isLine] at known
  obtain ⟨_, same⟩ := List.getElem?_eq_some_iff.mp known.symm
  rw [getElem_range] at same
  obtain rfl : request = sent := Option.some.inj (isRequest.symm.trans (same ▸ isSent))
  exact ⟨rfl, rfl⟩

/-- The second directory has the compressed K of the request of a line. -/
private theorem secondRound_dumped (distinct : (flushes.map Flush.docIdx).Nodup) {position : ℕ} {flush : Flush}
    (isLine : (writtenLines flushes)[position]? = some flush) :
    (secondRound encode requests flushes).metadata[position]? = some flush.entry ∧
      (secondRound encode requests flushes).pickles flush.entry.docIndex =
        some (compkOf encode requests flush.request) := by
  obtain ⟨mem, long⟩ := mem_filter.mp (mem_of_getElem? isLine)
  refine ⟨?_, secondRound_pickles distinct mem (of_decide_eq_true long).1⟩
  rw [secondRound_metadata, getElem?_map, isLine]
  rfl

section

variable (named : (dir.metadata.map MetaEntry.docIndex).Nodup)

include named

/-- A pickle with a line gets the compressed K of the request of that line. -/
private theorem finishBatch_pickles (distinct : (flushes.map Flush.docIdx).Nodup) {position : ℕ} {flush : Flush}
    (isLine : (writtenLines flushes)[position]? = some flush)
    (isRequest : (compkRequests client (dir.batchMetaLines currentDocCounter))[position]? = some request) :
    (finishBatch encode client currentDocCounter dir flushes).pickles request.r1File = (dir.pickles request.r1File).map
      (replaceCompk (compkOf encode (compkRequests client (dir.batchMetaLines currentDocCounter)) flush.request)) := by
  obtain ⟨entry, present, isFile, -⟩ := mem_compkRequests.mp (mem_of_getElem? isRequest)
  obtain ⟨metadata, dumped⟩ := @secondRound_dumped _ _ encode _ _ distinct _ _ isLine
  refine merge_pickles ?_ metadata isRequest ⟨entry, (mem_filter.mp present).1, isFile.symm⟩ dumped
  exact (named.sublist (filter_sublist.map _)).sublist (compkRequests_sublist _)

/-- A pickle is kept, or a line stands at the position of its request. -/
private theorem finishBatch_cases {entry : MetaEntry} (present : entry ∈ dir.metadata) :
    (finishBatch encode client currentDocCounter dir flushes).pickles entry.docIndex = dir.pickles entry.docIndex ∨
      ∃ (position : ℕ) (flush : Flush) (request : _), (writtenLines flushes)[position]? = some flush ∧
        (compkRequests client (dir.batchMetaLines currentDocCounter))[position]? = some request ∧
        BuiltFrom client entry request := by
  by_cases touched : ∃ position < (writtenLines flushes).length,
      ∃ request ∈ (compkRequests client (dir.batchMetaLines currentDocCounter))[position]?,
      request.r1File = entry.docIndex
  · obtain ⟨position, written, request, isRequest, isFile⟩ := touched
    obtain ⟨other, otherPresent, from'⟩ := mem_compkRequests.mp (mem_of_getElem? isRequest)
    obtain rfl : other = entry :=
      inj_on_of_nodup_map named (mem_filter.mp otherPresent).1 present (from'.1.symm.trans isFile)
    exact .inr ⟨position, _, request, getElem?_eq_getElem written, isRequest, from'⟩
  · refine .inl (merge_pickles_of_ne fun position written request isRequest isFile => touched
      ⟨position, ?_, request, isRequest, isFile⟩)
    rwa [secondRound_metadata, length_map] at written

end

/-- Two requests from one line are the same. -/
theorem BuiltFrom.same {entry : MetaEntry} {other : CompkRequest ρ} (first : BuiltFrom client entry request)
    (second : BuiltFrom client entry other) : other.index = request.index ∧ other.response = request.response :=
  ⟨Option.some.inj (second.2.1.symm.trans first.2.1), Option.some.inj (second.2.2.symm.trans first.2.2)⟩

/-- Whatever the server makes of the documents, every pickle of the batch is kept or gets the compressed K of the
request built from its own document, exactly if the lines of the second round are in the order of the requests. -/
theorem finishBatch_aligned [Nontrivial κ] (client : FirstRound ρ) (currentDocCounter : ℕ) (dir : DumpDir κ)
    (flushes : List Flush) (named : (dir.metadata.map MetaEntry.docIndex).Nodup)
    (distinct : (flushes.map Flush.docIdx).Nodup) :
    let requests := compkRequests client (dir.batchMetaLines currentDocCounter)
    (∀ encode : ℕ → ρ → ℕ → Option κ, let merged := finishBatch encode client currentDocCounter dir flushes
      ∀ entry ∈ dir.metadata, merged.pickles entry.docIndex = dir.pickles entry.docIndex ∨
        ∃ request ∈ requests, BuiltFrom client entry request ∧ merged.pickles entry.docIndex =
          (dir.pickles entry.docIndex).map (replaceCompk (encode request.index request.response))) ↔
    InOrder requests dir flushes := by
  intro requests
  constructor
  · intro aligned position flush request isLine isRequest exists' sent isSent
    obtain ⟨data, isData⟩ := Option.ne_none_iff_exists'.mp exists'
    obtain ⟨entry, present, from'⟩ := mem_compkRequests.mp (mem_of_getElem? isRequest)
    by_contra different
    -- a server whose K tells the two requests apart, and that of the other one from what the pickle had
    obtain ⟨value, new⟩ : ∃ value, data 0 ≠ some value := by
      obtain ⟨value, apart⟩ := exists_ne ((data 0).getD (Classical.arbitrary κ))
      exact ⟨value, fun same => apart (by rw [same]; rfl)⟩
    obtain ⟨own, notValue⟩ := exists_ne value
    classical
    have merged := aligned
      (fun index response _ => if index = request.index ∧ response = request.response then some own else some value)
      entry (mem_filter.mp present).1
    rw [← from'.1, finishBatch_pickles named distinct isLine isRequest, isData, Option.map_some] at merged
    rw [compkOf_of_eq_some isSent] at merged
    rcases merged with kept | ⟨request', _, again, same⟩
    · have entries := congrFun (Option.some.inj kept) 0
      simp only [replaceCompk, if_neg different] at entries
      exact new entries.symm
    · have entries := congrFun (Option.some.inj same) 0
      simp only [replaceCompk, if_neg different, if_pos (from'.same again)] at entries
      exact notValue (Option.some.inj entries).symm
  · intro inOrder encode merged entry present
    rcases @finishBatch_cases _ _ encode _ _ _ _ named _ present with kept |
      ⟨position, flush, request, isLine, isRequest, from'⟩
    · exact .inl kept
    · have merges := @finishBatch_pickles _ _ encode _ _ _ _ _ named distinct _ _ isLine isRequest
      rw [from'.1] at merges
      cases isData : dir.pickles entry.docIndex with
      | none => exact .inl (by rw [merges, isData]; rfl)
      | some data =>
        cases isSent : requests[flush.request]? with
        | none =>
          refine .inl (merges.trans ?_)
          rw [isData, compkOf_of_eq_none isSent]
          rfl
        | some sent =>
          obtain ⟨index, response⟩ :=
            inOrder position flush request isLine isRequest (by rw [from'.1, isData]; nofun) sent isSent
          refine .inr ⟨request, mem_of_getElem? isRequest, from', merges.trans ?_⟩
          rw [isData, compkOf_of_eq_some isSent, index, response]

/-- Two documents whose first round has written both pickles. -/
def twoDocuments : DumpDir ℕ := ⟨fun _ => some fun _ => none, [⟨0, 10, fun _ => none⟩, ⟨1, 11, fun _ => none⟩]⟩

/-- The response to a document is its number. -/
def twoRids : FirstRound ℕ :=
    ⟨fun rid => if rid = 10 then some 0 else if rid = 11 then some 1 else none, fun rid => some (rid - 10)⟩

/-- A flushed request of the second round. -/
def flushed (request docIdx : ℕ) : Flush := ⟨request, 20 + request, docIdx, 3, fun _ => none, true⟩

/-- The server dumps the number of the document. -/
def numberOf (index _response layer : ℕ) : Option ℕ := if layer = 6 then some index else none

theorem finishBatch_aligned_on_twoDocuments :
    let merged := finishBatch numberOf twoRids 0 twoDocuments [flushed 0 2, flushed 1 3]
    (writtenLines [flushed 0 2, flushed 1 3]).map Flush.request = List.range 2 ∧
    ∀ entry ∈ twoDocuments.metadata, merged.pickles entry.docIndex = twoDocuments.pickles entry.docIndex ∨
      ∃ request ∈ compkRequests twoRids (twoDocuments.batchMetaLines 0), BuiltFrom twoRids entry request ∧
        merged.pickles entry.docIndex =
          (twoDocuments.pickles entry.docIndex).map (replaceCompk (numberOf request.index request.response)) := by
  have order : (writtenLines [flushed 0 2, flushed 1 3]).map Flush.request = List.range 2 := by decide
  refine ⟨order, ?_⟩
  exact (finishBatch_aligned twoRids 0 twoDocuments [flushed 0 2, flushed 1 3] (by decide) (by decide)).mpr
    (inOrder_of_range order) numberOf

/-- The request for the first document fails, and its pickle gets the compressed K of the second one. -/
theorem failed_request_shifts :
    ((finishBatch numberOf twoRids 0 twoDocuments [flushed 1 3]).pickles 0).bind (· 6) = some 1 := by decide

end FlashMemory.DumpDir
