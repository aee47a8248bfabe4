/-
Cutting the load generator's output into records.

The loop looks for an opening brace and for three closing ones.  Around a record both
are found, and the cut leaves the last two closing braces in front of the text that
follows, where they do no harm: the next opening brace is looked for first.  After the
last record neither is found, and both positions are `-1`.  Sliced with that, the text
shrinks to its last character and an empty piece is appended, so the loop ends, but
with one record too many, the text `}}}`.  It is not entered when the two braces and
the text after the last record are shorter than ten characters together.

On a text that is no such output the loop need not end.  An opening brace without an end
behind it leaves the text as it was, and that is the only way to go round for ever.
-/
import Nicmem.PerfUtil.Trex

namespace Nicmem

open Python

/-! ### What the load generator prints -/

/-- A record: it opens with a brace and ends where three closing ones first occur. -/
structure Record where
  text : Str
  long : 10 ≤ text.length
  opens : text.head? = some '{'
  closes : index? recordEnd text = some (text.length - 3)

/-- Text without braces, as the console prints around the records. -/
structure ConsoleText where
  text : Str
  noOpen : '{' ∉ text
  noClose : '}' ∉ text

/-- The output: text, and then records, each with the text that follows it. -/
def output (before : ConsoleText) (rs : List (Record × ConsoleText)) : Str :=
  before.text ++ rs.flatMap fun e => e.1.text ++ e.2.text

/-- The text after the last record is too short for another round of the loop. -/
def shortTail (before : ConsoleText) (rs : List (Record × ConsoleText)) : Bool :=
  match rs.getLast? with
  | none => decide (before.text.length < 10)
  | some e => decide (e.2.text.length < 8)

namespace Record

theorem drop_eq (r : Record) : r.text.drop (r.text.length - 3) = recordEnd := by
  have hp := prefix_drop_of_index? r.closes
  refine (hp.eq_of_length ?_).symm
  have := r.long
  rw [List.length_drop]
  show 3 = _
  omega

/-- The record without the braces the loop cuts off. -/
def body (r : Record) : Str := r.text.take (r.text.length - 3)

theorem body_append (r : Record) : r.body ++ recordEnd = r.text := by
  rw [body, ← r.drop_eq, List.take_append_drop]

end Record

/-! ### One round -/

/-- A round that finds a record takes it and leaves two of its braces behind. -/
theorem splitStep_record {lead : Str} (hlead : '{' ∉ lead) (r : Record) (rest : Str) :
    splitStep (lead ++ (r.text ++ rest)) = (r.body, ['}', '}'] ++ rest) := by
  obtain ⟨tail, htail⟩ : ∃ tail, r.text = '{' :: tail := by
    cases hr : r.text with
    | nil =>
        have := r.opens
        simp [hr] at this
    | cons c tail =>
        have := r.opens
        rw [hr, List.head?_cons, Option.some.injEq] at this
        exact ⟨tail, by rw [this]⟩
  have hlong := r.long
  have hfirst : find ['{'] (lead ++ (r.text ++ rest)) = lead.length := by
    refine find_eq_of_index? ?_
    rw [htail, List.cons_append]
    exact index?_char hlead _
  have hlast : find recordEnd (r.text ++ rest) = (r.text.length - 3 : Nat) :=
    find_eq_of_index? (index?_append r.closes rest)
  unfold splitStep
  simp only [hfirst, sliceFrom_natCast, List.drop_left, hlast, sliceTo_natCast]
  rw [List.take_append_of_le_length (by omega), ← Int.natCast_one, ← Int.natCast_add,
    sliceFrom_natCast, List.drop_append_of_le_length (by omega), ← List.drop_drop, r.drop_eq]
  rfl

/-- A round without an opening brace appends an empty piece and keeps one character. -/
theorem splitStep_none {data : Str} (hopen : '{' ∉ data) (hne : data ≠ []) :
    ∃ c, splitStep data = ([], [c]) := by
  have hfirst : find ['{'] data = -1 := by
    refine find_eq_neg_one fun hc => hopen ?_
    exact hc.subset (List.mem_singleton.mpr rfl)
  have hlen : (data.drop (data.length - 1)).length = 1 := by
    have := List.length_pos_iff.mpr hne
    rw [List.length_drop]
    omega
  obtain ⟨c, hc⟩ := List.length_eq_one_iff.mp hlen
  have hlast : find recordEnd [c] = -1 := by
    refine find_eq_neg_one fun hi => ?_
    have := hi.length_le
    simp [recordEnd] at this
  refine ⟨c, ?_⟩
  unfold splitStep
  simp only [hfirst, sliceFrom_neg_one, hc, hlast, sliceTo_neg_one]
  rfl

/-! ### The whole loop -/

/-- What the loop leaves over: nothing, or one empty piece. -/
def leftOver (tail : Str) : List Str := if tail.length < 10 then [] else [[]]

theorem splitRecords_tail {tail : Str} (hopen : '{' ∉ tail) {fuel : Nat} (hfuel : 1 ≤ fuel) :
    splitRecords fuel tail = some (leftOver tail) := by
  obtain ⟨fuel, rfl⟩ := Nat.exists_eq_add_of_le' hfuel
  unfold splitRecords leftOver
  by_cases hshort : tail.length < 10
  · rw [if_pos hshort, if_pos hshort]
  · rw [if_neg hshort, if_neg hshort]
    have hne : tail ≠ [] := by
      rintro rfl
      exact hshort (by decide)
    obtain ⟨c, hc⟩ := splitStep_none hopen hne
    rw [hc]
    -- the one character left is below the threshold, whatever the fuel
    have hend : splitRecords fuel [c] = some [] := by cases fuel <;> rfl
    simp only [hend]
    rfl

/-- The text the loop ends on: what it starts with, or what the last record leaves behind. -/
def lastText : Str → List (Record × ConsoleText) → Str
  | lead, [] => lead
  | _, e :: rest => lastText (['}', '}'] ++ e.2.text) rest

/--
The loop over any text without an opening brace, followed by records: the records without
their closing braces, and what the text after the last one leaves over.
-/
theorem splitRecords_run (rs : List (Record × ConsoleText)) :
    ∀ (lead : Str) (fuel : Nat), '{' ∉ lead → rs.length + 1 ≤ fuel →
      splitRecords fuel (lead ++ rs.flatMap fun e => e.1.text ++ e.2.text) =
        some (rs.map (fun e => e.1.body) ++ leftOver (lastText lead rs)) := by
  induction rs with
  | nil =>
      intro lead fuel hlead hfuel
      rw [List.flatMap_nil, List.append_nil]
      exact splitRecords_tail hlead hfuel
  | cons e rest ih =>
      intro lead fuel hlead hfuel
      obtain ⟨fuel, rfl⟩ := Nat.exists_eq_add_of_le' (show 1 ≤ fuel by omega)
      have hopen : '{' ∉ ['}', '}'] ++ e.2.text := by
        rw [List.mem_append, not_or]
        exact ⟨by decide, e.2.noOpen⟩
      have hlong := e.1.long
      rw [splitRecords, if_neg (by simp only [List.length_append, List.flatMap_cons]; omega),
        List.flatMap_cons, List.append_assoc, splitStep_record hlead]
      simp only
      rw [← List.append_assoc, ih _ fuel hopen (by simp only [List.length_cons] at hfuel; omega)]
      rfl

theorem lastText_length_lt (before : ConsoleText) (rs : List (Record × ConsoleText)) :
    (lastText before.text rs).length < 10 ↔ shortTail before rs = true := by
  have hconcat : ∀ (init : List (Record × ConsoleText)) (lead : Str) (e : Record × ConsoleText),
      lastText lead (init ++ [e]) = ['}', '}'] ++ e.2.text := by
    intro init
    induction init with
    | nil => intro lead e; rfl
    | cons e' rest ih => intro lead e; exact ih _ e
  rcases List.eq_nil_or_concat rs with rfl | ⟨init, e, rfl⟩
  · simp [lastText, shortTail]
  · rw [List.concat_eq_append, hconcat, shortTail, List.getLast?_concat]
    simp only [List.length_append, List.length_cons, List.length_nil, decide_eq_true_eq]
    omega

/-- The texts handed to `literal_eval`: the records, and one more when the tail is long. -/
theorem recordTexts_output (before : ConsoleText) (rs : List (Record × ConsoleText)) {fuel : Nat}
    (hfuel : rs.length + 1 ≤ fuel) :
    recordTexts fuel (output before rs) =
      some (rs.map (fun e => e.1.text) ++ if shortTail before rs then [] else [recordEnd]) := by
  have hbody : rs.map ((· ++ recordEnd) ∘ fun e => e.1.body) = rs.map fun e => e.1.text :=
    List.map_congr_left fun e _ => e.1.body_append
  rw [recordTexts, output, splitRecords_run rs before.text fuel before.noOpen hfuel,
    Option.map_some, List.map_append, List.map_map, hbody, leftOver]
  simp only [lastText_length_lt]
  split <;> rfl

/--
**When the records are recovered.**  Exactly when fewer than eight characters follow the
last record, or, with no record at all, fewer than ten were printed.
-/
theorem recordTexts_exact_iff (before : ConsoleText) (rs : List (Record × ConsoleText))
    (fuel : Nat) (hfuel : rs.length + 1 ≤ fuel) :
    recordTexts fuel (output before rs) = some (rs.map fun e => e.1.text) ↔
      shortTail before rs = true := by
  rw [recordTexts_output before rs hfuel, Option.some.injEq]
  by_cases hshort : shortTail before rs = true
  · simp [hshort]
  · simp [hshort]

/-- A record as short as they come. -/
def smallRecord : Record :=
  ⟨['{', '1', ':', '{', '2', ':', '{', '}', '}', '}'], by decide, by decide, by decide⟩

/-- The line the load generator prints first. -/
def portsLine : ConsoleText := ⟨"ports: 0\n".toList, by decide, by decide⟩

def newline : ConsoleText := ⟨"\n".toList, by decide, by decide⟩

/-- A warning after the record. -/
def warning : ConsoleText := ⟨"\nwarning: 1 drop\n".toList, by decide, by decide⟩

theorem recordTexts_exact_smallRecord :
    [(smallRecord, newline)].length + 1 ≤ 2 ∧
    recordTexts 2 (output portsLine [(smallRecord, newline)]) = some [smallRecord.text] :=
  ⟨by decide, (recordTexts_exact_iff portsLine [(smallRecord, newline)] 2 (by decide)).mpr
    (by decide)⟩

/-- With a warning after the record there is a second one, of closing braces only. -/
theorem recordTexts_extra_record :
    recordTexts 2 (output portsLine [(smallRecord, warning)]) =
      some [smallRecord.text, recordEnd] := by
  decide

/-! ### Does the loop end? -/

/-- A round that finds an opening brace but no end of a record stays at the brace. -/
theorem splitStep_open {lead body : Str} (hlead : '{' ∉ lead) (hbody : body.head? = some '{')
    (hend : ¬ recordEnd <:+: body) : (splitStep (lead ++ body)).2 = body := by
  obtain ⟨tail, rfl⟩ := List.head?_eq_some_iff.mp hbody
  unfold splitStep
  simp only [find_eq_of_index? (index?_char hlead tail), sliceFrom_natCast, List.drop_left,
    find_eq_neg_one hend]
  exact sliceFrom_natCast _ 0

/-- A round that finds an opening brace and an end of a record goes past the end's first brace. -/
theorem splitStep_close {lead body : Str} {n : Nat} (hlead : '{' ∉ lead)
    (hbody : body.head? = some '{') (hend : index? recordEnd body = some n) :
    (splitStep (lead ++ body)).2 = body.drop (n + 1) := by
  obtain ⟨tail, rfl⟩ := List.head?_eq_some_iff.mp hbody
  unfold splitStep
  simp only [find_eq_of_index? (index?_char hlead tail), sliceFrom_natCast, List.drop_left,
    find_eq_of_index? hend]
  exact sliceFrom_natCast _ (n + 1)

/-- A text with an opening brace, cut before the first one. -/
theorem exists_open {data : Str} (h : '{' ∈ data) :
    ∃ lead body, data = lead ++ body ∧ '{' ∉ lead ∧ body.head? = some '{' := by
  obtain ⟨lead, tail, rfl, hlead⟩ := List.eq_append_cons_of_mem h
  exact ⟨lead, '{' :: tail, rfl, hlead, rfl⟩

/-- What starts with an opening brace starts no earlier than the first one. -/
theorem suffix_of_first_open {u lead body : Str} (h : u <:+ lead ++ body)
    (hopen : u.head? = some '{') (hlead : '{' ∉ lead) : u <:+ body := by
  by_cases hle : u.length ≤ body.length
  · exact List.suffix_of_suffix_length_le h (List.suffix_append lead body) hle
  · obtain ⟨x, rfl⟩ := List.suffix_of_suffix_length_le (List.suffix_append lead body) h (by omega)
    obtain ⟨y, hy⟩ := h
    rw [← List.append_assoc, List.append_cancel_right_eq] at hy
    cases x with
    | nil => exact List.suffix_refl body
    | cons c x =>
        rw [List.cons_append, List.head?_cons, Option.some.injEq] at hopen
        refine absurd ?_ hlead
        rw [← hy, hopen]
        exact List.mem_append_right y List.mem_cons_self

/-- A suffix without the end of a record starts behind the first one. -/
theorem suffix_drop_of_not_end {u body : Str} {n : Nat} (h : u <:+ body)
    (hu : ¬ recordEnd <:+: u) (hend : index? recordEnd body = some n) :
    u <:+ body.drop (n + 1) := by
  refine List.suffix_of_suffix_length_le h (List.drop_suffix _ _) ?_
  by_contra hlt
  rw [List.length_drop] at hlt
  -- otherwise the end of the record lies within the suffix
  have hdrop : body.drop n <:+ u := by
    refine List.suffix_of_suffix_length_le (List.drop_suffix _ _) h ?_
    rw [List.length_drop]
    omega
  exact hu ((prefix_drop_of_index? hend).isInfix.trans hdrop.isInfix)

/-- The loop never gets past an opening brace that no record end follows. -/
theorem splitRecords_stuck {u : Str} (hopen : u.head? = some '{') (hlong : 10 ≤ u.length)
    (hend : ¬ recordEnd <:+: u) (fuel : Nat) :
    ∀ data, u <:+ data → splitRecords fuel data = none := by
  induction fuel with
  | zero =>
      intro data h
      have := h.length_le
      rw [splitRecords, if_neg (by omega)]
  | succ fuel ih =>
      intro data h
      have := h.length_le
      obtain ⟨lead, body, rfl, hlead, hbody⟩ := exists_open (h.subset (List.mem_of_mem_head? hopen))
      have hsuffix := suffix_of_first_open h hopen hlead
      have hnext : u <:+ (splitStep (lead ++ body)).2 := by
        cases hindex : index? recordEnd body with
        | none =>
            rw [splitStep_open hlead hbody (index?_eq_none_iff.mp hindex)]
            exact hsuffix
        | some n =>
            rw [splitStep_close hlead hbody hindex]
            exact suffix_drop_of_not_end hsuffix hend hindex
      rw [splitRecords, if_neg (by omega), ih _ hnext, Option.map_none]

/-- Where every opening brace is followed by a record end, or by little, each round cuts
something off. -/
theorem splitRecords_ends (n : Nat) :
    ∀ data : Str, data.length ≤ n →
      (∀ u, u <:+ data → u.head? = some '{' → 10 ≤ u.length → recordEnd <:+: u) →
      ∃ fuel pieces, splitRecords fuel data = some pieces := by
  induction n with
  | zero =>
      intro data hlen _
      exact ⟨0, [], if_pos (by omega)⟩
  | succ n ih =>
      intro data hlen hends
      by_cases hshort : data.length < 10
      · exact ⟨0, [], if_pos hshort⟩
      by_cases hopen : '{' ∈ data
      · obtain ⟨lead, body, rfl, hlead, hbody⟩ := exists_open hopen
        -- the loop goes on with a shorter text, or ends with what is left
        have hnext : ∃ fuel pieces,
            splitRecords fuel (splitStep (lead ++ body)).2 = some pieces := by
          cases hindex : index? recordEnd body with
          | none =>
              have hno := index?_eq_none_iff.mp hindex
              have hsmall : body.length < 10 := by
                by_contra hlong
                exact hno (hends body (List.suffix_append lead body) hbody (by omega))
              rw [splitStep_open hlead hbody hno]
              exact ⟨0, [], if_pos hsmall⟩
          | some m =>
              rw [splitStep_close hlead hbody hindex]
              have hpos : 0 < body.length := List.length_pos_of_mem (List.mem_of_mem_head? hbody)
              refine ih _ ?_ fun u hu => hends u (hu.trans ?_)
              · rw [List.length_append] at hlen
                rw [List.length_drop]
                omega
              · exact (List.drop_suffix _ _).trans (List.suffix_append lead body)
        obtain ⟨fuel, pieces, hrun⟩ := hnext
        exact ⟨fuel + 1, _, by rw [splitRecords, if_neg hshort, hrun, Option.map_some]⟩
      · exact ⟨1, _, splitRecords_tail hopen (Nat.le_refl 1)⟩

/--
**When the loop ends.**  Exactly when three closing braces follow every opening brace that
has at least nine characters behind it.
-/
theorem splitRecords_ends_iff (data : Str) :
    (∃ fuel pieces, splitRecords fuel data = some pieces) ↔
      ∀ u, u <:+ data → u.head? = some '{' → 10 ≤ u.length → recordEnd <:+: u := by
  constructor
  · rintro ⟨fuel, pieces, hrun⟩ u hu hopen hlong
    by_contra hend
    rw [splitRecords_stuck hopen hlong hend fuel data hu] at hrun
    cases hrun
  · exact splitRecords_ends data.length data (Nat.le_refl _)

/-- A record that was cut off while it was printed. -/
def cutRecord : Str := '{' :: "'global': ".toList

/-- No number of rounds gets through it. -/
theorem splitRecords_cutRecord : ¬ ∃ fuel pieces, splitRecords fuel cutRecord = some pieces := by
  rintro ⟨fuel, pieces, hrun⟩
  have hend : ¬ recordEnd <:+: cutRecord := index?_eq_none_iff.mp (by decide)
  rw [splitRecords_stuck rfl (by decide) hend fuel cutRecord (List.suffix_refl _)] at hrun
  cases hrun

end Nicmem
