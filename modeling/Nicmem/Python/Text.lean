/-
Byte strings and the string methods the scripts call.

A string is a list of characters.  Each method is written from its documented
behaviour on the byte strings of the language: `strip` removes the whitespace of
the C locale, `split` and `replace` work left to right without overlap, and a
slice bound may be negative, in which case it counts from the end.  That last rule
is what makes `find` returning `-1` usable as an ordinary slice bound, so it is
modelled as such and not as a failure.

Every recursion is structural on the text: a method that consumes several
characters at once walks on one by one with a count of characters still to skip.
-/
import Mathlib.Data.List.DropRight
import Mathlib.Data.List.Infix

namespace Python

/-- A byte string. -/
abbrev Str := List Char

instance : LawfulBEq Str := inferInstance

/-- The whitespace `strip` removes and `\s` matches. -/
def isSpace (c : Char) : Bool :=
  c == ' ' || c == '\t' || c == '\n' || c == '\r' || c == '\x0b' || c == '\x0c'

/-- `s.lstrip()`. -/
def lstrip (s : Str) : Str := s.dropWhile isSpace

/-- `s.rstrip()`. -/
def rstrip (s : Str) : Str := s.rdropWhile isSpace

/-- `s.lstrip().rstrip()`. -/
def strip (s : Str) : Str := rstrip (lstrip s)

/-- `'%ws' % s`: right-justified in a field of width `w`. -/
def rjust (w : Nat) (s : Str) : Str := s.leftpad w ' '

/-- Where `sub` first occurs in the text, if it does. -/
def index? (sub : Str) : Str → Option Nat
  | [] => if sub.isEmpty then some 0 else none
  | c :: s => if sub.isPrefixOf (c :: s) then some 0 else (index? sub s).map (· + 1)

/-- `s.find(sub)`. -/
def find (sub s : Str) : Int := ((index? sub s).map Int.ofNat).getD (-1)

/-- `sub in s`. -/
def hasSub (sub s : Str) : Bool := (index? sub s).isSome

/-- A slice bound as a position: negative bounds count from the end. -/
def bound (s : Str) (i : Int) : Nat := (if i < 0 then s.length + i else i).toNat

/-- `s[i:]`. -/
def sliceFrom (s : Str) (i : Int) : Str := s.drop (bound s i)

/-- `s[:i]`. -/
def sliceTo (s : Str) (i : Int) : Str := s.take (bound s i)

/-- `s.split(sep)` after `skip` more characters of a separator already seen. -/
def splitFrom (sep : Str) : Nat → Str → List Str
  | _, [] => [[]]
  | skip + 1, _ :: s => splitFrom sep skip s
  | 0, c :: s =>
    if sep.isPrefixOf (c :: s) then [] :: splitFrom sep (sep.length - 1) s
    else (splitFrom sep 0 s).modifyHead (c :: ·)

/-- `s.split(sep)` for a separator of several characters. -/
def splitStr (sep s : Str) : List Str := splitFrom sep 0 s

/-- `s.replace(old, new)` after `skip` more characters of a match already replaced. -/
def replaceFrom (old new : Str) : Nat → Str → Str
  | _, [] => []
  | skip + 1, _ :: s => replaceFrom old new skip s
  | 0, c :: s =>
    if old.isPrefixOf (c :: s) then new ++ replaceFrom old new (old.length - 1) s
    else c :: replaceFrom old new 0 s

/-- `s.replace(old, new)`. -/
def replace (old new s : Str) : Str := replaceFrom old new 0 s

/-- `s.lower()`. -/
def lower (s : Str) : Str := s.map Char.toLower

/-! ### Blanks at the ends -/

/-- No whitespace at either end. -/
def trimmed (s : Str) : Bool :=
  s.head?.all (fun c => !isSpace c) && s.getLast?.all (fun c => !isSpace c)

theorem lstrip_eq_self {s : Str} (h : s.head?.all (fun c => !isSpace c) = true) :
    lstrip s = s := by
  cases s with
  | nil => rfl
  | cons c rest =>
      have hc : isSpace c = false := by simpa using h
      simp [lstrip, hc]

theorem rstrip_eq_self {s : Str} (h : s.getLast?.all (fun c => !isSpace c) = true) :
    rstrip s = s := by
  refine List.rdropWhile_eq_self_iff.mpr fun hne => ?_
  rw [List.getLast?_eq_getLast_of_ne_nil hne] at h
  simpa using h

/-- What is left after stripping does not end in a blank. -/
theorem isSpace_getLast_rstrip {s : Str} {c : Char} (h : (rstrip s).getLast? = some c) :
    isSpace c = false := by
  have hne : rstrip s ≠ [] := by
    intro hnil
    rw [hnil] at h
    cases h
  rw [List.getLast?_eq_getLast_of_ne_nil hne, Option.some.injEq] at h
  rw [← h]
  exact Bool.eq_false_iff.mpr (List.rdropWhile_last_not isSpace s hne)

theorem lstrip_replicate_append (n : Nat) (s : Str) :
    lstrip (List.replicate n ' ' ++ s) = lstrip s := by
  induction n with
  | zero => rfl
  | succ n ih =>
      rw [List.replicate_succ, List.cons_append]
      exact ih

/-- Padding on the left does not survive stripping. -/
theorem strip_replicate_append {s : Str} (h : trimmed s = true) (n : Nat) :
    strip (List.replicate n ' ' ++ s) = s := by
  obtain ⟨hhead, hlast⟩ := Bool.and_eq_true_iff.mp h
  rw [strip, lstrip_replicate_append, lstrip_eq_self hhead, rstrip_eq_self hlast]

theorem strip_cons_rjust {s : Str} (h : trimmed s = true) (w : Nat) :
    strip (' ' :: rjust w s) = s :=
  strip_replicate_append h (w - s.length + 1)

/-! ### Slices -/

theorem sliceFrom_natCast (s : Str) (n : Nat) : sliceFrom s n = s.drop n := by
  rw [sliceFrom, bound, if_neg (by omega), Int.toNat_natCast]

theorem sliceTo_natCast (s : Str) (n : Nat) : sliceTo s n = s.take n := by
  rw [sliceTo, bound, if_neg (by omega), Int.toNat_natCast]

/-- The bound `-1` keeps the last character only. -/
theorem sliceFrom_neg_one (s : Str) : sliceFrom s (-1) = s.drop (s.length - 1) := by
  rw [sliceFrom, bound, if_pos (by omega)]
  congr 1
  omega

/-- The bound `-1` leaves the last character out. -/
theorem sliceTo_neg_one (s : Str) : sliceTo s (-1) = s.take (s.length - 1) := by
  rw [sliceTo, bound, if_pos (by omega)]
  congr 1
  omega

/-! ### Substrings -/

theorem index?_isSome_iff (sub s : Str) : (index? sub s).isSome = true ↔ sub <:+: s := by
  induction s with
  | nil =>
      cases sub with
      | nil => simp [index?]
      | cons a rest => simp [index?]
  | cons c s ih =>
      rw [index?, List.infix_cons_iff]
      by_cases hp : sub.isPrefixOf (c :: s) = true
      · simp [hp, List.isPrefixOf_iff_prefix.mp hp]
      · rw [if_neg hp, Option.isSome_map, ih]
        have : ¬ sub <+: c :: s := fun hc => hp (List.isPrefixOf_iff_prefix.mpr hc)
        simp [this]

theorem hasSub_iff {sub s : Str} : hasSub sub s = true ↔ sub <:+: s := index?_isSome_iff sub s

theorem index?_eq_none_iff {sub s : Str} : index? sub s = none ↔ ¬ sub <:+: s := by
  rw [← index?_isSome_iff]
  cases index? sub s <;> simp

theorem find_eq_neg_one {sub s : Str} (h : ¬ sub <:+: s) : find sub s = -1 := by
  rw [find, index?_eq_none_iff.mpr h]
  rfl

theorem find_eq_of_index? {sub s : Str} {n : Nat} (h : index? sub s = some n) :
    find sub s = n := by
  rw [find, h]
  rfl

/-- Where a character first occurs after a text without it. -/
theorem index?_char {c : Char} {lead : Str} (h : c ∉ lead) (rest : Str) :
    index? [c] (lead ++ c :: rest) = some lead.length := by
  induction lead with
  | nil => simp [index?, List.isPrefixOf]
  | cons d lead ih =>
      rw [List.mem_cons, not_or] at h
      have hp : ([c] : Str).isPrefixOf (d :: (lead ++ c :: rest)) = false := by
        simpa [List.isPrefixOf] using h.1
      rw [List.cons_append, index?, hp, if_neg Bool.false_ne_true, ih h.2]
      rfl

/-- The first occurrence of a text stays the first one when the text is continued. -/
theorem index?_append {sub s : Str} {n : Nat} (h : index? sub s = some n) (t : Str) :
    index? sub (s ++ t) = some n := by
  induction s generalizing n with
  | nil =>
      cases sub with
      | nil => cases t <;> simpa [index?] using h
      | cons a rest => simp [index?] at h
  | cons c s ih =>
      rw [index?] at h
      rw [List.cons_append, index?]
      by_cases hp : sub.isPrefixOf (c :: s) = true
      · rw [if_pos hp] at h
        have hp' : sub.isPrefixOf (c :: (s ++ t)) = true :=
          List.isPrefixOf_iff_prefix.mpr
            ((List.isPrefixOf_iff_prefix.mp hp).trans (List.prefix_append (c :: s) t))
        rw [if_pos hp', h]
      · rw [if_neg hp] at h
        obtain ⟨m, hm, rfl⟩ := Option.map_eq_some_iff.mp h
        -- the text occurs in `s`, so it is too short to reach into the continuation
        have hlen : sub.length ≤ s.length := by
          have hinf : sub <:+: s := (index?_isSome_iff sub s).mp (by rw [hm]; rfl)
          exact hinf.length_le
        have hp' : ¬ sub.isPrefixOf (c :: (s ++ t)) = true := by
          intro hc
          refine hp (List.isPrefixOf_iff_prefix.mpr ?_)
          exact List.prefix_of_prefix_length_le (List.isPrefixOf_iff_prefix.mp hc)
            (List.prefix_append (c :: s) t) (by simp only [List.length_cons]; omega)
        rw [if_neg hp', ih hm]
        rfl

/-- The text does occur where its index is. -/
theorem prefix_drop_of_index? {sub s : Str} {n : Nat} (h : index? sub s = some n) :
    sub <+: s.drop n := by
  induction s generalizing n with
  | nil =>
      cases sub with
      | nil => exact List.nil_prefix
      | cons a rest => simp [index?] at h
  | cons c s ih =>
      rw [index?] at h
      by_cases hp : sub.isPrefixOf (c :: s) = true
      · rw [if_pos hp, Option.some.injEq] at h
        subst h
        exact List.isPrefixOf_iff_prefix.mp hp
      · rw [if_neg hp] at h
        obtain ⟨m, hm, rfl⟩ := Option.map_eq_some_iff.mp h
        exact ih hm

/-! ### Cut texts -/

section Cut

variable {α β : Type}

theorem prefix_append_cases {u a b : List α} (h : u <+: a ++ b) :
    u <+: a ∨ ∃ v, u = a ++ v ∧ v <+: b := by
  rcases List.prefix_or_prefix_of_prefix h (List.prefix_append a b) with h' | ⟨v, rfl⟩
  · exact Or.inl h'
  · exact Or.inr ⟨v, rfl, (List.prefix_append_right_inj a).mp h⟩

/-- Where a text of several parts is cut: behind some whole parts, in the next one. -/
theorem prefix_flatMap {f : β → List α} {u : List α} {l : List β} (h : u <+: l.flatMap f) :
    ∃ done rest v, l = done ++ rest ∧ u = done.flatMap f ++ v ∧
      v <+: (rest.head?.map f).getD [] := by
  induction l generalizing u with
  | nil => exact ⟨[], [], u, rfl, rfl, h⟩
  | cons x l ih =>
      rw [List.flatMap_cons] at h
      rcases prefix_append_cases h with hx | ⟨w, rfl, hw⟩
      · exact ⟨[], x :: l, u, rfl, rfl, hx⟩
      · obtain ⟨done, rest, v, rfl, rfl, hv⟩ := ih hw
        exact ⟨x :: done, rest, v, rfl, by simp, hv⟩

end Cut

/-! ### Splitting and joining on one character -/

/-- Lines, each ended by the separator, and what follows them. -/
theorem splitOn_terminated_append {c : Char} {ls : List Str} (h : ∀ l ∈ ls, c ∉ l) (s : Str) :
    (ls.flatMap (· ++ [c]) ++ s).splitOn c = ls ++ s.splitOn c := by
  induction ls with
  | nil => rfl
  | cons l rest ih =>
      rw [List.flatMap_cons, List.append_assoc, List.append_assoc, List.singleton_append,
        List.splitOn_append_cons_self_of_not_mem (h l (by simp)),
        ih fun x hx => h x (by simp [hx]), List.cons_append]

/-- Lines, each ended by the separator, split back into themselves and an empty tail. -/
theorem splitOn_flatMap_terminated {c : Char} {ls : List Str} (h : ∀ l ∈ ls, c ∉ l) :
    (ls.flatMap (· ++ [c])).splitOn c = ls ++ [[]] := by
  have hsplit := splitOn_terminated_append h []
  rw [List.append_nil] at hsplit
  exact hsplit

/-- Every character but the separator is in some piece of a split. -/
theorem exists_mem_splitOn (sep : Char) {c : Char} (hne : c ≠ sep) {s : Str} (h : c ∈ s) :
    ∃ piece ∈ s.splitOn sep, c ∈ piece := by
  induction s with
  | nil => simp at h
  | cons d rest ih =>
      rw [List.splitOn_cons_eq_if_modifyHead]
      by_cases hd : d = sep
      · have hc : c ∈ rest := by
          rcases List.mem_cons.mp h with rfl | hc
          · exact absurd hd hne
          · exact hc
        obtain ⟨piece, hp, hcp⟩ := ih hc
        exact ⟨piece, by simp [hd, hp], hcp⟩
      · obtain ⟨first, pieces, hsplit⟩ := List.exists_cons_of_ne_nil (List.splitOn_ne_nil sep rest)
        rw [hsplit] at ih ⊢
        simp only [beq_iff_eq, hd, if_false, List.modifyHead_cons]
        rcases List.mem_cons.mp h with rfl | hc
        · exact ⟨c :: first, by simp, by simp⟩
        · obtain ⟨piece, hp, hcp⟩ := ih hc
          rcases List.mem_cons.mp hp with rfl | hp
          · exact ⟨d :: piece, by simp, by simp [hcp]⟩
          · exact ⟨piece, by simp [hp], hcp⟩

/-- Prepending to the first piece of a split. -/
private theorem mem_modifyHead {c : Char} {pieces : List Str} {piece : Str}
    (h : piece ∈ pieces.modifyHead (c :: ·)) :
    piece ∈ pieces ∨ ∃ first ∈ pieces, piece = c :: first := by
  cases pieces with
  | nil => simp at h
  | cons first rest =>
      rcases List.mem_cons.mp h with rfl | h
      · exact .inr ⟨first, by simp, rfl⟩
      · exact .inl (by simp [h])

/-- The separator is in no piece of a split. -/
theorem not_mem_of_mem_splitOn {sep : Char} {s piece : Str} (h : piece ∈ s.splitOn sep) :
    sep ∉ piece := by
  induction s generalizing piece with
  | nil =>
      rw [List.splitOn_nil, List.mem_singleton] at h
      simp [h]
  | cons d rest ih =>
      rw [List.splitOn_cons_eq_if_modifyHead] at h
      by_cases hd : d = sep
      · simp only [hd, beq_self_eq_true, if_true] at h
        rcases List.mem_cons.mp h with rfl | h
        · simp
        · exact ih h
      · simp only [beq_iff_eq, hd, if_false] at h
        rcases mem_modifyHead h with h | ⟨first, hfirst, rfl⟩
        · exact ih h
        · intro hc
          rcases List.mem_cons.mp hc with rfl | hc
          · exact hd rfl
          · exact ih hfirst hc

/-- The pieces of a split hold characters of the text only. -/
theorem mem_of_mem_splitOn {sep c : Char} {s piece : Str} (h : piece ∈ s.splitOn sep)
    (hc : c ∈ piece) : c ∈ s := by
  induction s generalizing piece with
  | nil =>
      rw [List.splitOn_nil, List.mem_singleton] at h
      simp [h] at hc
  | cons d rest ih =>
      rw [List.splitOn_cons_eq_if_modifyHead] at h
      split at h
      · rcases List.mem_cons.mp h with rfl | h
        · simp at hc
        · exact List.mem_cons_of_mem _ (ih h hc)
      · rcases mem_modifyHead h with h | ⟨first, hfirst, rfl⟩
        · exact List.mem_cons_of_mem _ (ih h hc)
        · rcases List.mem_cons.mp hc with rfl | hc
          · exact List.mem_cons_self
          · exact List.mem_cons_of_mem _ (ih hfirst hc)

theorem mem_of_mem_splitStr {sep : Str} {c : Char} {s piece : Str} (h : piece ∈ splitStr sep s)
    (hc : c ∈ piece) : c ∈ s := by
  have hfrom : ∀ (s : Str) (skip : Nat) (piece : Str), piece ∈ splitFrom sep skip s →
      c ∈ piece → c ∈ s := by
    intro s
    induction s with
    | nil =>
        intro skip piece h hc
        rw [splitFrom, List.mem_singleton] at h
        simp [h] at hc
    | cons d rest ih =>
        intro skip piece h hc
        cases skip with
        | succ skip => exact List.mem_cons_of_mem _ (ih skip piece h hc)
        | zero =>
            rw [splitFrom] at h
            split at h
            · rcases List.mem_cons.mp h with rfl | h
              · simp at hc
              · exact List.mem_cons_of_mem _ (ih _ piece h hc)
            · rcases mem_modifyHead h with h | ⟨first, hfirst, rfl⟩
              · exact List.mem_cons_of_mem _ (ih 0 piece h hc)
              · rcases List.mem_cons.mp hc with rfl | hc
                · exact List.mem_cons_self
                · exact List.mem_cons_of_mem _ (ih 0 first hfirst hc)
  exact hfrom s 0 piece h hc

/-- The first piece of a split starts the text, and the others are in it. -/
theorem splitOn_infix {sep : Char} {s first : Str} {pieces : List Str}
    (h : s.splitOn sep = first :: pieces) : first <+: s ∧ ∀ piece ∈ pieces, piece <:+: s := by
  induction s generalizing first pieces with
  | nil =>
      rw [List.splitOn_nil, List.cons.injEq] at h
      rw [← h.1, ← h.2]
      simp
  | cons d rest ih =>
      obtain ⟨first', pieces', hsplit⟩ := List.exists_cons_of_ne_nil (List.splitOn_ne_nil sep rest)
      obtain ⟨hfirst, hpieces⟩ := ih hsplit
      rw [List.splitOn_cons_eq_if_modifyHead, hsplit] at h
      split at h
      · rw [List.cons.injEq] at h
        rw [← h.1, ← h.2]
        refine ⟨List.nil_prefix, fun piece hpiece => ?_⟩
        rcases List.mem_cons.mp hpiece with rfl | hpiece
        · exact hfirst.isInfix.trans (List.suffix_cons d rest).isInfix
        · exact (hpieces piece hpiece).trans (List.suffix_cons d rest).isInfix
      · rw [List.modifyHead_cons, List.cons.injEq] at h
        rw [← h.1, ← h.2]
        refine ⟨List.cons_prefix_cons.mpr ⟨rfl, hfirst⟩, fun piece hpiece => ?_⟩
        exact (hpieces piece hpiece).trans (List.suffix_cons d rest).isInfix

/-- A text without the separator that starts the text starts its first piece. -/
theorem prefix_splitOn {sep : Char} {sub s first : Str} {pieces : List Str} (hsub : sep ∉ sub)
    (h : s.splitOn sep = first :: pieces) (hp : sub <+: s) : sub <+: first := by
  induction s generalizing sub first pieces with
  | nil =>
      rw [List.prefix_nil.mp hp]
      exact List.nil_prefix
  | cons d rest ih =>
      cases sub with
      | nil => exact List.nil_prefix
      | cons a sub =>
          obtain ⟨rfl, htail⟩ := List.cons_prefix_cons.mp hp
          rw [List.mem_cons, not_or] at hsub
          obtain ⟨first', pieces', hsplit⟩ :=
            List.exists_cons_of_ne_nil (List.splitOn_ne_nil sep rest)
          have hd : (a == sep) = false := beq_eq_false_iff_ne.mpr fun h => hsub.1 h.symm
          rw [List.splitOn_cons_eq_if_modifyHead, hd, hsplit, if_neg Bool.false_ne_true,
            List.modifyHead_cons, List.cons.injEq] at h
          rw [← h.1]
          exact List.cons_prefix_cons.mpr ⟨rfl, ih hsub.2 hsplit htail⟩

/-- A text without the separator occurs in a text when it occurs in one of its pieces. -/
theorem infix_splitOn {sep : Char} {sub s : Str} (hsub : sep ∉ sub) :
    sub <:+: s ↔ ∃ piece ∈ s.splitOn sep, sub <:+: piece := by
  constructor
  · intro h
    induction s with
    | nil => exact ⟨[], by simp, h⟩
    | cons d rest ih =>
        obtain ⟨first, pieces, hsplit⟩ :=
          List.exists_cons_of_ne_nil (List.splitOn_ne_nil sep (d :: rest))
        rcases List.infix_cons_iff.mp h with hp | hi
        · exact ⟨first, by simp [hsplit], (prefix_splitOn hsub hsplit hp).isInfix⟩
        · obtain ⟨piece, hpiece, hin⟩ := ih hi
          rw [List.splitOn_cons_eq_if_modifyHead]
          split
          · exact ⟨piece, List.mem_cons_of_mem _ hpiece, hin⟩
          · obtain ⟨first', pieces', hrest⟩ :=
              List.exists_cons_of_ne_nil (List.splitOn_ne_nil sep rest)
            rw [hrest] at hpiece ⊢
            rcases List.mem_cons.mp hpiece with rfl | hpiece
            · exact ⟨d :: piece, by simp, hin.trans (List.suffix_cons d piece).isInfix⟩
            · exact ⟨piece, by simp [hpiece], hin⟩
  · rintro ⟨piece, hpiece, hin⟩
    obtain ⟨first, pieces, hsplit⟩ := List.exists_cons_of_ne_nil (List.splitOn_ne_nil sep s)
    obtain ⟨hfirst, hpieces⟩ := splitOn_infix hsplit
    rw [hsplit] at hpiece
    rcases List.mem_cons.mp hpiece with rfl | hpiece
    · exact hin.trans hfirst.isInfix
    · exact hin.trans (hpieces piece hpiece)

/-- Splitting at a separator of two characters that occurs once. -/
theorem splitStr_pair {a b : Char} {s t : Str} (hs : a ∉ s) (ht : b ∉ t) :
    splitStr [a, b] (s ++ a :: b :: t) = [s, t] := by
  have hlast : ∀ t : Str, b ∉ t → splitFrom [a, b] 0 t = [t] := by
    intro t
    induction t with
    | nil => intro _; rfl
    | cons c rest ih =>
        intro ht
        rw [List.mem_cons, not_or] at ht
        have hp : ([a, b] : Str).isPrefixOf (c :: rest) = false := by
          cases rest with
          | nil => simp [List.isPrefixOf]
          | cons d rest' =>
              have hd : b ≠ d := fun h => ht.2 (h ▸ List.mem_cons_self)
              simp [List.isPrefixOf, hd]
        rw [splitFrom, hp, if_neg Bool.false_ne_true, ih ht.2]
        rfl
  rw [splitStr]
  induction s with
  | nil =>
      rw [List.nil_append, splitFrom, if_pos (by simp [List.isPrefixOf])]
      exact congrArg _ (hlast t ht)
  | cons c rest ih =>
      rw [List.mem_cons, not_or] at hs
      have hp : ([a, b] : Str).isPrefixOf (c :: (rest ++ a :: b :: t)) = false := by
        simp [List.isPrefixOf, hs.1]
      rw [List.cons_append, splitFrom, hp, if_neg Bool.false_ne_true, ih hs.2]
      rfl

/-! ### Replacing -/

/-- What a replacement puts in, or was there before. -/
theorem mem_of_mem_replace {old new s : Str} {c : Char} (h : c ∈ replace old new s) :
    c ∈ new ∨ c ∈ s := by
  have hfrom : ∀ (s : Str) (skip : Nat), c ∈ replaceFrom old new skip s → c ∈ new ∨ c ∈ s := by
    intro s
    induction s with
    | nil => intro skip h; cases skip <;> simp [replaceFrom] at h
    | cons d rest ih =>
        intro skip h
        cases skip with
        | succ skip => exact (ih skip h).imp_right (List.mem_cons_of_mem _)
        | zero =>
            rw [replaceFrom] at h
            split at h
            · rcases List.mem_append.mp h with h | h
              · exact .inl h
              · exact (ih _ h).imp_right (List.mem_cons_of_mem _)
            · rcases List.mem_cons.mp h with rfl | h
              · exact .inr List.mem_cons_self
              · exact (ih 0 h).imp_right (List.mem_cons_of_mem _)
  exact hfrom s 0 h

theorem replace_char (a b : Char) (s : Str) :
    replace [a] [b] s = s.map fun c => if c = a then b else c := by
  induction s with
  | nil => rfl
  | cons c rest ih =>
      rw [replace] at ih ⊢
      rw [replaceFrom, List.map_cons]
      by_cases hc : c = a
      · subst hc
        simpa using ih
      · have hp : ([a] : Str).isPrefixOf (c :: rest) = false := by
          simpa [List.isPrefixOf] using fun h => hc h.symm
        rw [hp, if_neg hc, ih]
        rfl

section Replace

variable {old new : Str}

/-- A character at which no match starts stays. -/
theorem replace_cons {c : Char} {s : Str} (h : ¬ old <+: c :: s) :
    replace old new (c :: s) = c :: replace old new s := by
  rw [replace, replaceFrom, if_neg]
  · rfl
  · intro hp
    exact h (List.isPrefixOf_iff_prefix.mp hp)

theorem replace_append_old (hne : old ≠ []) (s : Str) :
    replace old new (old ++ s) = new ++ replace old new s := by
  have hskip : ∀ t : Str, replaceFrom old new t.length (t ++ s) = replaceFrom old new 0 s := by
    intro t
    induction t with
    | nil => rfl
    | cons c t ih => exact ih
  obtain ⟨c, t, ht⟩ := List.exists_cons_of_ne_nil hne
  have hp : old.isPrefixOf (c :: (t ++ s)) = true :=
    List.isPrefixOf_iff_prefix.mpr (ht ▸ List.prefix_append (c :: t) s)
  have hlen : old.length - 1 = t.length := by
    rw [ht]
    rfl
  have htext : old ++ s = c :: (t ++ s) := by
    rw [ht]
    rfl
  rw [htext, replace, replaceFrom, if_pos hp, hlen, hskip]
  rfl

/-- Nothing is replaced where the text does not occur. -/
theorem replace_eq_self {s : Str} (h : ¬ old <:+: s) : replace old new s = s := by
  induction s with
  | nil => rfl
  | cons c s ih =>
      rw [replace_cons fun hp => h hp.isInfix,
        ih fun hin => h (hin.trans (List.suffix_cons c s).isInfix)]

/-- Two characters are replaced in each part of a text, unless they stand on both sides of
the seam. -/
theorem replace_pair_append {a b : Char} {t : Str} :
    ∀ {s : Str}, (s.getLast? = some a → t.head? ≠ some b) →
      replace [a, b] new (s ++ t) = replace [a, b] new s ++ replace [a, b] new t
  | [], _ => rfl
  | [c], h => by
      have hnot : ¬ [a, b] <+: [c] := fun hp => absurd hp.length_le (by simp)
      have hseam : ¬ [a, b] <+: c :: t := by
        intro hp
        obtain ⟨rfl, u, rfl⟩ := List.cons_prefix_cons.mp hp
        exact h rfl rfl
      rw [replace_cons hnot, List.singleton_append, replace_cons hseam]
      rfl
  | c :: d :: s, h => by
      have hlast : ∀ {u : Str}, u.getLast? = some a → (d :: u).getLast? = some a := by
        intro u hu
        rw [List.getLast?_cons, hu]
        rfl
      by_cases hp : [a, b] <+: c :: d :: s
      · obtain ⟨rfl, hb⟩ := List.cons_prefix_cons.mp hp
        obtain ⟨rfl, -⟩ := List.cons_prefix_cons.mp hb
        have ih :=
          replace_pair_append (s := s) fun hs => h (by rw [List.getLast?_cons_cons, hlast hs])
        show replace [a, b] new ([a, b] ++ (s ++ t)) = replace [a, b] new ([a, b] ++ s) ++ _
        rw [replace_append_old (by simp), replace_append_old (by simp), ih, List.append_assoc]
      · have hp' : ¬ [a, b] <+: c :: (d :: s ++ t) := by
          intro h'
          obtain ⟨rfl, hb⟩ := List.cons_prefix_cons.mp h'
          obtain ⟨rfl, -⟩ := List.cons_prefix_cons.mp hb
          exact hp (List.prefix_append [a, b] s)
        have ih :=
          replace_pair_append (s := d :: s) fun hs => h (by rw [List.getLast?_cons_cons, hs])
        rw [List.cons_append, replace_cons hp', ih, replace_cons hp]
        rfl

/-- What a text that shares no character with what is put in starts with was there before. -/
theorem prefix_of_prefix_replace (hnew : new ≠ []) {s : Str} :
    ∀ {t : Str}, (∀ c ∈ new, c ∉ t) → t <+: replace old new s → t <+: s := by
  induction s with
  | nil => exact fun _ h => h
  | cons c s ih =>
      intro t hdisj h
      cases t with
      | nil => exact List.nil_prefix
      | cons d t =>
          by_cases hp : old.isPrefixOf (c :: s) = true
          · -- the first character would be one that was put in
            rw [replace, replaceFrom, if_pos hp] at h
            obtain ⟨e, n, hn⟩ := List.exists_cons_of_ne_nil hnew
            rw [hn, List.cons_append] at h
            obtain ⟨rfl, -⟩ := List.cons_prefix_cons.mp h
            exact absurd List.mem_cons_self (hdisj d (by simp [hn]))
          · rw [replace, replaceFrom, if_neg hp] at h
            obtain ⟨rfl, hrest⟩ := List.cons_prefix_cons.mp h
            refine List.cons_prefix_cons.mpr ⟨rfl, ih ?_ hrest⟩
            exact fun e he hmem => hdisj e he (List.mem_cons_of_mem _ hmem)

/-- A text that shares no character with what is put in was there before. -/
theorem infix_of_infix_replace {t : Str} (hne : t ≠ []) (hnew : new ≠ [])
    (hdisj : ∀ c ∈ new, c ∉ t) {s : Str} (h : t <:+: replace old new s) : t <:+: s := by
  have hput : ∀ (n u : Str), n ⊆ new → t <:+: n ++ u → t <:+: u := by
    intro n u
    induction n with
    | nil => exact fun _ h => h
    | cons c n ih =>
        intro hsub h
        rcases List.infix_cons_iff.mp h with hp | hin
        · obtain ⟨d, t', ht⟩ := List.exists_cons_of_ne_nil hne
          rw [ht] at hp
          obtain ⟨rfl, -⟩ := List.cons_prefix_cons.mp hp
          exact absurd (ht ▸ List.mem_cons_self) (hdisj d (hsub List.mem_cons_self))
        · exact ih (fun d hd => hsub (List.mem_cons_of_mem c hd)) hin
  have hfrom : ∀ (s : Str) (skip : Nat), t <:+: replaceFrom old new skip s → t <:+: s := by
    intro s
    induction s with
    | nil => intro skip h; cases skip <;> exact h
    | cons c s ih =>
        intro skip h
        cases skip with
        | succ skip => exact (ih skip h).trans (List.suffix_cons c s).isInfix
        | zero =>
            rw [replaceFrom] at h
            split at h
            · exact (ih _ (hput new _ (fun _ h => h) h)).trans (List.suffix_cons c s).isInfix
            · rcases List.infix_cons_iff.mp h with hp | hin
              · cases t with
                | nil => exact absurd rfl hne
                | cons d t =>
                    obtain ⟨rfl, hrest⟩ := List.cons_prefix_cons.mp hp
                    have hprefix := prefix_of_prefix_replace hnew
                      (fun e he hmem => hdisj e he (List.mem_cons_of_mem _ hmem)) hrest
                    exact (List.cons_prefix_cons.mpr ⟨rfl, hprefix⟩).isInfix
              · exact (ih 0 hin).trans (List.suffix_cons c s).isInfix
  exact hfrom s 0 h

end Replace

/-- What stands before the letters is not a letter's small form. -/
theorem toLower_eq_iff {c d : Char} (hd : d.val.toNat < 65) : c.toLower = d ↔ c = d := by
  unfold Char.toLower
  split
  · -- a capital letter goes to a small one
    rename_i hupper
    have hle : (65 : Nat) ≤ c.val.toNat := hupper.1
    have hge : c.val.toNat ≤ 90 := hupper.2
    constructor
    · intro hlow
      have hval := congrArg (fun d : Char => d.val.toNat) hlow
      simp only [UInt32.toNat_add, UInt32.toNat_sub, Char.reduceVal, UInt32.reduceToNat] at hval
      omega
    · rintro rfl
      omega
  · exact Iff.rfl

theorem mem_lower_iff {d : Char} {s : Str} (hd : d.val.toNat < 65) : d ∈ lower s ↔ d ∈ s := by
  rw [lower, List.mem_map]
  constructor
  · rintro ⟨c, hc, hlow⟩
    rw [← (toLower_eq_iff hd).mp hlow]
    exact hc
  · intro h
    exact ⟨d, h, (toLower_eq_iff hd).mpr rfl⟩

/-- Only blanks are cut off at the end. -/
theorem mem_drop_rstrip_iff {c : Char} {s : Str} (n : Nat) (hc : isSpace c = false) :
    c ∈ (rstrip s).drop n ↔ c ∈ s.drop n := by
  obtain ⟨blanks, hs⟩ := List.rdropWhile_prefix isSpace s
  have hblanks : ∀ d ∈ blanks, isSpace d = true := by
    have hdrop : blanks = (s.reverse.takeWhile isSpace).reverse := by
      have hsplit : s = s.rdropWhile isSpace ++ (s.reverse.takeWhile isSpace).reverse := by
        rw [List.rdropWhile, ← List.reverse_append, List.takeWhile_append_dropWhile,
          List.reverse_reverse]
      exact List.append_cancel_left (hs.trans hsplit)
    intro d hd
    rw [hdrop, List.mem_reverse] at hd
    exact List.mem_takeWhile_imp hd
  have hnot : c ∉ blanks.drop (n - (rstrip s).length) := fun h =>
    Bool.false_ne_true (hc.symm.trans (hblanks c (List.mem_of_mem_drop h)))
  conv_rhs => rw [← hs]
  rw [List.drop_append, List.mem_append]
  exact ⟨.inl, fun h => h.resolve_right hnot⟩

end Python
