/-
  Method resolution — names in writing.

  A declaration is filed under a digest of its name's text and looked up along
  the name's segments, so text and segments should lead to each other.  They do
  not for every name: separators are found from the left and empty segments are
  skipped, hence no text names `b` in the namespace `a:`.  They do for every
  name that was read from a text.

  * `Splits`: a text and its segments, each of which ends where a separator
    begins for the first time.  It holds of the segments that are found and of
    no others (`splitSegments_eq_iff`);
  * `Legible`: a name no segment of which is skipped, cut or cut short;
  * `legible_ofText`: a name that was read is legible, unless there was nothing
    but separators to read;
  * `ofText_text_iff`: the legible names are those that are read as they were
    written, besides the empty one;
  * `reading_undoes_writing`: so reading, writing and reading again is reading.
-/
import Mathlib.Data.List.Infix
import MethodResolution.QualifiedName

namespace MethodResolution

namespace QualifiedName

variable {c : Char} {chars segment : List Char} {parts : List (List Char)}

/-! ## Where a text is cut -/

/-- A text and its segments.  Before a cut no separator begins, not even with
    the last character of the segment. -/
inductive Splits : List Char → List (List Char) → Prop
  | last {segment : List Char} : ¬ separator.toList <:+: segment → Splits segment [segment]
  | cut {segment chars : List Char} {parts : List (List Char)} :
      ¬ separator.toList <:+: segment ++ [':'] → Splits chars parts →
      Splits (segment ++ separator.toList ++ chars) (segment :: parts)

theorem separator_infix_concat_iff :
    separator.toList <:+: segment ++ [':'] ↔
      separator.toList <:+: segment ∨ [':'] <:+ segment := by
  have hcolons : separator.toList = [':'] ++ [':'] := rfl
  rw [List.infix_concat_iff, hcolons, List.suffix_append_inj_of_length_eq rfl, and_iff_left rfl,
    or_comm]

/-- Nothing is cut at a character that begins no separator. -/
theorem Splits.cons (h : Splits chars (segment :: parts))
    (hc : ¬ separator.toList <+: c :: chars) : Splits (c :: chars) ((c :: segment) :: parts) := by
  cases h with
  | last hwhole =>
    refine .last fun hinfix => ?_
    rcases List.infix_cons_iff.1 hinfix with hstart | hlater
    · exact hc hstart
    · exact hwhole hlater
  | @cut _ after _ hfirst hafter =>
    rw [← List.cons_append, ← List.cons_append]
    refine .cut (fun hinfix => ?_) hafter
    rcases List.infix_cons_iff.1 hinfix with hstart | hlater
    · refine hc (hstart.trans ⟨':' :: after, ?_⟩)
      simp [separator]
    · exact hfirst hlater

theorem splits_splitSegments (chars : List Char) : Splits chars (splitSegments chars) := by
  fun_induction splitSegments chars with
  | case1 => exact .last (by decide)
  | case2 chars ih => exact .cut (by decide : ¬ separator.toList <:+: [] ++ [':']) ih
  | case3 c chars _ hnone ih =>
    rw [hnone] at ih
    cases ih
  | case4 c chars hno segment parts hsome ih =>
    rw [hsome] at ih
    refine ih.cons fun hstart => ?_
    obtain ⟨after, hafter⟩ := hstart
    exact hno after (List.cons.inj hafter).1.symm (List.cons.inj hafter).2.symm

/-! ## The only way to cut -/

theorem splitSegments_cons (hc : ¬ separator.toList <+: c :: chars)
    (h : splitSegments chars = segment :: parts) :
    splitSegments (c :: chars) = (c :: segment) :: parts := by
  rw [splitSegments, h]
  rintro after rfl rfl
  exact hc ⟨after, rfl⟩

theorem splitSegments_of_whole (h : ¬ separator.toList <:+: segment) :
    splitSegments segment = [segment] := by
  induction segment with
  | nil => rfl
  | cons c segment ih =>
    rw [List.infix_cons_iff, not_or] at h
    exact splitSegments_cons h.1 (ih h.2)

theorem splitSegments_append (h : ¬ separator.toList <:+: segment ++ [':']) :
    splitSegments (segment ++ separator.toList ++ chars) = segment :: splitSegments chars := by
  induction segment with
  | nil => rfl
  | cons c segment ih =>
    rw [List.cons_append, List.infix_cons_iff, not_or] at h
    refine splitSegments_cons (fun hstart => h.1 ?_) (ih h.2)
    -- the separator is too short to reach beyond the colon after the segment
    refine List.prefix_of_prefix_length_le hstart ⟨':' :: chars, ?_⟩ ?_
    · simp [separator]
    · simp [separator]

/-- **The segments of a text are those that are found.** -/
theorem splitSegments_eq_iff : splitSegments chars = parts ↔ Splits chars parts := by
  refine ⟨fun h => h ▸ splits_splitSegments chars, fun h => ?_⟩
  induction h with
  | last hwhole => exact splitSegments_of_whole hwhole
  | cut hfirst _ ih => rw [splitSegments_append hfirst, ih]

/-! ## What segments are like -/

theorem Splits.whole (h : Splits chars parts) :
    ∀ segment ∈ parts, ¬ separator.toList <:+: segment := by
  induction h with
  | last hwhole => simpa using hwhole
  | cut hfirst _ ih =>
    rw [separator_infix_concat_iff, not_or] at hfirst
    exact List.forall_mem_cons.2 ⟨hfirst.1, ih⟩

/-- A segment that another follows does not end within a separator. -/
theorem Splits.closed (h : Splits chars parts) :
    parts.Pairwise fun segment _ => ¬ [':'] <:+ segment := by
  induction h with
  | last => exact List.pairwise_singleton _ _
  | cut hfirst _ ih =>
    rw [separator_infix_concat_iff, not_or] at hfirst
    exact ih.cons fun _ _ => hfirst.2

/-- Such segments are the segments of what they make up. -/
theorem splits_intercalate {path : List (List Char)}
    (hpath : ∀ segment ∈ path, ¬ separator.toList <:+: segment ++ [':'])
    (hlast : ¬ separator.toList <:+: segment) :
    Splits (separator.toList.intercalate (path ++ [segment])) (path ++ [segment]) := by
  induction path with
  | nil =>
    rw [List.nil_append, List.intercalate_singleton]
    exact .last hlast
  | cons outer path ih =>
    rw [List.forall_mem_cons] at hpath
    rw [List.cons_append, List.intercalate_cons_of_ne_nil (List.concat_ne_nil _ _)]
    exact .cut hpath.1 (ih hpath.2)

/-! ## Legible names -/

/-- A name that can be told from its text. -/
structure Legible (q : QualifiedName) : Prop where
  /-- No segment is skipped. -/
  nonempty : ∀ segment ∈ q.path ++ [q.name], segment ≠ ""
  /-- No segment is cut. -/
  whole : ∀ segment ∈ q.path ++ [q.name], ¬ separator.toList <:+: segment.toList
  /-- No namespace loses its end to the separator that follows. -/
  closed : ∀ segment ∈ q.path, ¬ [':'] <:+ segment.toList

instance (q : QualifiedName) : Decidable q.Legible :=
  decidable_of_iff
    ((∀ segment ∈ q.path ++ [q.name], segment ≠ "") ∧
      (∀ segment ∈ q.path ++ [q.name], ¬ separator.toList <:+: segment.toList) ∧
      ∀ segment ∈ q.path, ¬ [':'] <:+ segment.toList)
    ⟨fun ⟨hnonempty, hwhole, hclosed⟩ => ⟨hnonempty, hwhole, hclosed⟩,
      fun h => ⟨h.nonempty, h.whole, h.closed⟩⟩

variable {q : QualifiedName} {s : String}

theorem ofSegments_concat (path : List String) (name : String) :
    ofSegments (path ++ [name]) = ⟨name, path⟩ := by
  rw [ofSegments, List.getLast?_concat, List.dropLast_concat]

/-! ### Written and read -/

theorem Legible.splits (h : q.Legible) :
    Splits q.text.toList ((q.path ++ [q.name]).map String.toList) := by
  rw [text, String.toList_intercalate, List.map_append, List.map_singleton]
  refine splits_intercalate (fun segment hsegment => ?_) (h.whole q.name List.mem_concat_self)
  obtain ⟨outer, houter, rfl⟩ := List.mem_map.1 hsegment
  rw [separator_infix_concat_iff, not_or]
  exact ⟨h.whole outer (List.mem_append_left _ houter), h.closed outer houter⟩

theorem Legible.segments_text (h : q.Legible) : segments q.text = q.path ++ [q.name] := by
  have hkept : ∀ chars ∈ (q.path ++ [q.name]).map String.toList, decide (chars ≠ []) = true := by
    intro chars hchars
    obtain ⟨segment, hsegment, rfl⟩ := List.mem_map.1 hchars
    simpa using h.nonempty segment hsegment
  rw [segments, splitSegments_eq_iff.2 h.splits, List.filter_eq_self.2 hkept, List.map_map]
  simp [Function.comp_def]

theorem Legible.ofText_text (h : q.Legible) : ofText q.text = q := by
  rw [ofText, h.segments_text, ofSegments_concat]

/-! ### Read and written -/

theorem mem_segments_iff {segment : String} :
    segment ∈ segments s ↔ segment ≠ "" ∧ segment.toList ∈ splitSegments s.toList := by
  simp only [segments, List.mem_map, List.mem_filter, decide_eq_true_eq]
  constructor
  · rintro ⟨chars, ⟨hfound, hnonempty⟩, rfl⟩
    exact ⟨fun h => hnonempty (String.ofList_eq_empty_iff.1 h), by rwa [String.toList_ofList]⟩
  · rintro ⟨hnonempty, hfound⟩
    exact ⟨segment.toList, ⟨hfound, fun h => hnonempty (String.toList_eq_nil_iff.1 h)⟩,
      String.ofList_toList⟩

/-- Skipping empty segments brings none to the front of another separator. -/
theorem pairwise_segments (s : String) :
    (segments s).Pairwise fun segment _ => ¬ [':'] <:+ segment.toList := by
  rw [segments, List.pairwise_map]
  refine ((splits_splitSegments s.toList).closed.filter _).imp fun {chars _} hclosed => ?_
  rwa [String.toList_ofList]

theorem segments_eq_nil_iff :
    segments s = [] ↔ ∀ segment ∈ splitSegments s.toList, segment = [] := by
  simp [segments]

theorem ofText_of_segments_eq_nil (h : segments s = []) : ofText s = global "" := by
  rw [ofText, h]
  rfl

/-- What was read can be read again. -/
theorem legible_ofText (h : segments s ≠ []) : (ofText s).Legible := by
  obtain ⟨path, name, hsegments⟩ := (List.eq_nil_or_concat' (segments s)).resolve_left h
  have hfound : ∀ segment ∈ path ++ [name],
      segment ≠ "" ∧ segment.toList ∈ splitSegments s.toList :=
    fun segment hsegment => mem_segments_iff.1 (hsegments ▸ hsegment)
  have hpairwise := pairwise_segments s
  rw [hsegments, List.pairwise_append] at hpairwise
  rw [ofText, hsegments, ofSegments_concat]
  exact {
    nonempty := fun segment hsegment => (hfound segment hsegment).1
    whole := fun segment hsegment =>
      (splits_splitSegments s.toList).whole _ (hfound segment hsegment).2
    closed := fun segment hsegment =>
      hpairwise.2.2 segment hsegment name (List.mem_singleton_self name) }

theorem legible_or_nameless (s : String) : (ofText s).Legible ∨ ofText s = global "" := by
  by_cases h : segments s = []
  · exact .inr (ofText_of_segments_eq_nil h)
  · exact .inl (legible_ofText h)

/-- The name is empty only if there was none to read. -/
theorem name_ofText_eq_empty_iff : (ofText s).name = "" ↔ segments s = [] := by
  refine ⟨fun hname => ?_, fun h => by rw [ofText_of_segments_eq_nil h]; rfl⟩
  by_contra hsome
  exact (legible_ofText hsome).nonempty _ List.mem_concat_self hname

/-- **The legible names are those that are read as they were written**, besides
    the empty one. -/
theorem ofText_text_iff : ofText q.text = q ↔ q.Legible ∨ q = global "" := by
  constructor
  · intro hread
    exact hread ▸ legible_or_nameless q.text
  · rintro (hlegible | rfl)
    · exact hlegible.ofText_text
    · rfl

/-- The third colon goes to the name, so the namespace `a:` is lost. -/
example : (⟨"b", ["a:"]⟩ : QualifiedName).text = "a:::b" ∧ ofText "a:::b" = ⟨":b", ["a"]⟩ := by
  decide

/-- **Reading undoes writing.**  A name that was read is written so that it is
    read again.  Its namespaces are neither empty nor do they hold a separator,
    and its own name is empty only if every segment of the text is.  Of all
    names, those come back that are legible, and the empty one. -/
theorem reading_undoes_writing :
    (∀ s : String, ofText (ofText s).text = ofText s ∧
      (∀ segment ∈ (ofText s).path, segment ≠ "" ∧ ¬ separator.toList <:+: segment.toList) ∧
      ((ofText s).name = "" ↔ ∀ segment ∈ splitSegments s.toList, segment = [])) ∧
    ∀ q : QualifiedName, ofText q.text = q ↔ q.Legible ∨ q = global "" := by
  refine ⟨fun s => ⟨?_, fun segment hsegment => ?_, ?_⟩, fun q => ofText_text_iff⟩
  · exact ofText_text_iff.2 (legible_or_nameless s)
  · rcases legible_or_nameless s with hlegible | hnameless
    · have hmem := List.mem_append_left [(ofText s).name] hsegment
      exact ⟨hlegible.nonempty segment hmem, hlegible.whole segment hmem⟩
    · rw [hnameless] at hsegment
      cases hsegment
  · exact name_ofText_eq_empty_iff.trans segments_eq_nil_iff

/-- Colons are no obstacle where they do not end a namespace. -/
theorem colons_read_back :
    Legible ⟨"b:", [":a", "c:d"]⟩ ∧
      ofText (⟨"b:", [":a", "c:d"]⟩ : QualifiedName).text = ⟨"b:", [":a", "c:d"]⟩ :=
  have hlegible : Legible ⟨"b:", [":a", "c:d"]⟩ := by decide
  ⟨hlegible, (reading_undoes_writing.2 _).2 (.inl hlegible)⟩

end QualifiedName

end MethodResolution
