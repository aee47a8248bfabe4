/-
What `re.findall` finds.

Two directions are needed.  A match has to be computed: a repetition that is followed by
a character it cannot take takes all it can, so on a text laid out like the pattern the
matcher never gives anything back.  And a match has to be excluded: whatever is matched
fits the pattern, so it holds every literal character of it, and a text without one of
them has no match.
-/
import Mathlib.Data.List.Forall2
import Nicmem.Python.Regex

namespace Python

/-! ### Groups -/

/-- The groups after several characters. -/
def Groups.pushAll (g : Groups) (t : Str) : Groups := { g with current := g.current.map (· ++ t) }

theorem Groups.pushAll_nil (g : Groups) : g.pushAll [] = g := by
  cases g with
  | mk current closed => cases current <;> simp [pushAll]

theorem Groups.push_pushAll (g : Groups) (c : Char) (t : Str) :
    (g.push c).pushAll t = g.pushAll (c :: t) := by
  cases g with
  | mk current closed => cases current <;> simp [pushAll, push]

/-- Outside a group, characters are not kept. -/
theorem Groups.pushAll_of_closed {closed : List Str} (t : Str) :
    (⟨none, closed⟩ : Groups).pushAll t = ⟨none, closed⟩ := rfl

/-! ### Repetitions -/

section Star

variable {R : Type} {a : Atom} {k : Str → Groups → Option R} {r : R}

/-- What a repetition takes: some characters that pass, and then the rest goes on. -/
theorem starMatch_eq_some {s : Str} :
    ∀ {g : Groups}, starMatch a k s g = some r →
      ∃ t s', s = t ++ s' ∧ (∀ c ∈ t, a.test c = true) ∧ k s' (g.pushAll t) = some r := by
  induction s with
  | nil =>
      intro g h
      refine ⟨[], [], rfl, fun c hc => absurd hc List.not_mem_nil, ?_⟩
      rw [Groups.pushAll_nil]
      exact h
  | cons c s ih =>
      intro g h
      have hstop : k (c :: s) g = some r →
          ∃ t s', c :: s = t ++ s' ∧ (∀ c ∈ t, a.test c = true) ∧ k s' (g.pushAll t) = some r := by
        intro hk
        refine ⟨[], c :: s, rfl, fun c hc => absurd hc List.not_mem_nil, ?_⟩
        rw [Groups.pushAll_nil]
        exact hk
      rw [starMatch] at h
      by_cases hc : a.test c = true
      · rw [if_pos hc, Option.or_eq_some_iff] at h
        rcases h with hmore | ⟨-, hk⟩
        · obtain ⟨t, s', rfl, ht, hk⟩ := ih hmore
          refine ⟨c :: t, s', rfl, ?_, ?_⟩
          · intro d hd
            rcases List.mem_cons.mp hd with rfl | hd
            · exact hc
            · exact ht d hd
          · rw [Groups.push_pushAll] at hk
            exact hk
        · exact hstop hk
      · rw [if_neg hc] at h
        exact hstop h

/-- A repetition takes all it can, if the rest goes on from there. -/
theorem starMatch_greedy {t s : Str} (hs : ∀ c ∈ s.head?, a.test c = false) :
    ∀ {g : Groups}, (∀ c ∈ t, a.test c = true) → k s (g.pushAll t) = some r →
      starMatch a k (t ++ s) g = some r := by
  induction t with
  | nil =>
      intro g _ h
      rw [Groups.pushAll_nil] at h
      cases s with
      | nil => exact h
      | cons c s =>
          rw [List.nil_append, starMatch, hs c rfl]
          exact h
  | cons c t ih =>
      intro g ht h
      rw [List.cons_append, starMatch, ht c List.mem_cons_self]
      rw [← Groups.push_pushAll] at h
      rw [if_pos rfl, ih (fun d hd => ht d (List.mem_cons_of_mem _ hd)) h]
      rfl

end Star

/-! ### Computing a match -/

section Compute

variable {p : Pattern} {s : Str} {g : Groups} {r : Groups × Str}

theorem matchAt_append_lit (w : Str) :
    ∀ {g : Groups}, matchAt (w.map (fun c => .one (.ch c)) ++ p) (w ++ s) g =
      matchAt p s (g.pushAll w) := by
  induction w with
  | nil =>
      intro g
      rw [Groups.pushAll_nil]
      rfl
  | cons c w ih =>
      intro g
      show (if (c == c) = true then _ else _) = _
      rw [if_pos (beq_self_eq_true c), ← Groups.push_pushAll]
      exact ih

/-- A literal, outside a group. -/
theorem matchAt_lit (w : String) {closed : List Str} :
    matchAt (Pattern.lit w ++ p) (w.toList ++ s) ⟨none, closed⟩ = matchAt p s ⟨none, closed⟩ :=
  matchAt_append_lit w.toList

/-- A literal at the end of a pattern. -/
theorem matchAt_lit_end (w : String) (s : Str) (closed : List Str) :
    matchAt (Pattern.lit w) (w.toList ++ s) ⟨none, closed⟩ = some (⟨none, closed⟩, s) := by
  rw [← List.append_nil (Pattern.lit w), matchAt_lit]
  rfl

/-- `a+` takes all it can. -/
theorem matchAt_plus {a : Atom} {t : Str} (hne : t ≠ []) (ht : ∀ c ∈ t, a.test c = true)
    (hs : ∀ c ∈ s.head?, a.test c = false) (h : matchAt p s (g.pushAll t) = some r) :
    matchAt (Pattern.plus a ++ p) (t ++ s) g = some r := by
  cases t with
  | nil => exact absurd rfl hne
  | cons c t =>
      show (if a.test c = true then starMatch a (fun s g => matchAt p s g) (t ++ s) (g.push c)
        else none) = _
      rw [if_pos (ht c List.mem_cons_self)]
      refine starMatch_greedy hs (fun d hd => ht d (List.mem_cons_of_mem _ hd)) ?_
      rw [Groups.push_pushAll]
      exact h

end Compute

/--
A pattern that, after the groups `closed`, takes the text `t` and goes on with the groups
`closed'`.  Only one direction is kept, since a repetition could also stop earlier where
the rest of the pattern does not match.
-/
def Pattern.Takes (q : Pattern) (t : Str) (closed closed' : List Str) : Prop :=
  ∀ (p : Pattern) (s : Str) (r : Groups × Str), matchAt p s ⟨none, closed'⟩ = some r →
    matchAt (q ++ p) (t ++ s) ⟨none, closed⟩ = some r

section Takes

variable {q q' : Pattern} {t t' : Str} {a b c : List Str}

theorem Pattern.Takes.append (h : q.Takes t a b) (h' : q'.Takes t' b c) :
    Pattern.Takes (q ++ q') (t ++ t') a c := by
  intro p s r hr
  rw [List.append_assoc, List.append_assoc]
  exact h _ _ _ (h' _ _ _ hr)

theorem takes_lit (w : String) : (Pattern.lit w).Takes w.toList a a := by
  intro p s r hr
  rw [matchAt_lit]
  exact hr

/-- Blanks in front of a literal that does not start with one. -/
theorem takes_plus_lit {t : Str} (hne : t ≠ []) (ht : ∀ c ∈ t, isSpace c = true) (w : String)
    (hw : ∃ c u, w.toList = c :: u ∧ isSpace c = false) :
    Pattern.Takes (Pattern.plus .space ++ Pattern.lit w) (t ++ w.toList) a a := by
  obtain ⟨d, u, hdu, hd⟩ := hw
  intro p s r hr
  rw [List.append_assoc, List.append_assoc]
  refine matchAt_plus hne ht ?_ ?_
  · intro c hc
    rw [hdu] at hc
    obtain rfl : d = c := by simpa using hc
    exact hd
  · rw [Groups.pushAll_of_closed, matchAt_lit]
    exact hr

/-- A group of one digit. -/
theorem takes_group_digit {d : Char} (hd : d.isDigit = true) :
    Pattern.Takes (Pattern.group (Pattern.one .digit)) [d] a (a ++ [[d]]) := by
  intro p s r hr
  show (if d.isDigit = true then _ else none) = _
  rw [if_pos hd]
  exact hr

end Takes

/-- A text that does not go on with a digit. -/
def Stops (s : Str) : Prop := ∀ c ∈ s.head?, c.isDigit = false

theorem stops_nil : Stops [] := fun _ hc => nomatch hc

theorem stops_cons {c : Char} (hc : c.isDigit = false) (s : Str) : Stops (c :: s) := by
  intro d hd
  obtain rfl : c = d := by simpa using hd
  exact hc

theorem Stops.of_prefix {s t : Str} (hs : Stops s) (ht : t <+: s) : Stops t := by
  cases t with
  | nil => exact stops_nil
  | cons c t =>
      obtain ⟨u, rfl⟩ := ht
      exact stops_cons (hs c rfl) t

/-- A group of a decimal number takes all the digits there are. -/
theorem matchAt_group_decimal_append {p : Pattern} {w f s : Str} {closed : List Str}
    {r : Groups × Str} (hw : w ≠ []) (hwd : ∀ c ∈ w, c.isDigit = true) (hf : f ≠ [])
    (hfd : ∀ c ∈ f, c.isDigit = true) (hs : Stops s)
    (h : matchAt p s ⟨none, closed ++ [w ++ '.' :: f]⟩ = some r) :
    matchAt (Pattern.group Pattern.decimal ++ p) (w ++ ('.' :: (f ++ s))) ⟨none, closed⟩ =
      some r := by
  have hshape : Pattern.group Pattern.decimal ++ p =
      .lpar :: (Pattern.plus .digit ++ (.one (.ch '.') :: (Pattern.plus .digit ++ .rpar :: p))) :=
        rfl
  rw [hshape]
  show matchAt _ (w ++ ('.' :: (f ++ s))) ⟨some [], closed⟩ = _
  refine matchAt_plus hw hwd ?_ ?_
  · intro c hc
    obtain rfl : '.' = c := by simpa using hc
    rfl
  · show matchAt (Pattern.plus .digit ++ .rpar :: p) (f ++ s) ⟨some ([] ++ w ++ ['.']), closed⟩ = _
    refine matchAt_plus hf hfd hs ?_
    simpa [matchAt, Groups.pushAll, Groups.close] using h

theorem matchAt_group_decimal {w f s : Str} {closed : List Str} (hw : w ≠ [])
    (hwd : ∀ c ∈ w, c.isDigit = true) (hf : f ≠ []) (hfd : ∀ c ∈ f, c.isDigit = true)
    (hs : Stops s) :
    matchAt (Pattern.group Pattern.decimal) (w ++ ('.' :: (f ++ s))) ⟨none, closed⟩ =
      some (⟨none, closed ++ [w ++ '.' :: f]⟩, s) := by
  rw [← List.append_nil (Pattern.group Pattern.decimal)]
  exact matchAt_group_decimal_append hw hwd hf hfd hs rfl

/-! ### What fits a pattern -/

/-- The text is one a pattern may match. -/
def Pattern.Fits : Pattern → Str → Prop
  | [], t => t = []
  | .one a :: p, t => ∃ c u, t = c :: u ∧ a.test c = true ∧ Pattern.Fits p u
  | .star a :: p, t => ∃ u v, t = u ++ v ∧ (∀ c ∈ u, a.test c = true) ∧ Pattern.Fits p v
  | .lpar :: p, t => Pattern.Fits p t
  | .rpar :: p, t => Pattern.Fits p t

/-- What a single character takes. -/
theorem matchAt_one_eq_some {a : Atom} {p : Pattern} {s : Str} {g : Groups} {r : Groups × Str}
    (h : matchAt (.one a :: p) s g = some r) :
    ∃ c s', s = c :: s' ∧ a.test c = true ∧ matchAt p s' (g.push c) = some r := by
  cases s with
  | nil => cases h
  | cons c s =>
      rw [matchAt] at h
      by_cases hc : a.test c = true
      · rw [if_pos hc] at h
        exact ⟨c, s, rfl, hc, h⟩
      · rw [if_neg hc] at h
        cases h

/-- What is matched fits the pattern. -/
theorem fits_of_matchAt {p : Pattern} :
    ∀ {s rest : Str} {g g' : Groups}, matchAt p s g = some (g', rest) →
      ∃ t, s = t ++ rest ∧ Pattern.Fits p t := by
  induction p with
  | nil =>
      intro s rest g g' h
      cases h
      exact ⟨[], rfl, rfl⟩
  | cons i p ih =>
      intro s rest g g' h
      cases i with
      | one a =>
          obtain ⟨c, s', rfl, hc, hk⟩ := matchAt_one_eq_some h
          obtain ⟨t, rfl, ht⟩ := ih hk
          exact ⟨c :: t, rfl, c, t, rfl, hc, ht⟩
      | star a =>
          obtain ⟨u, s', rfl, hu, hk⟩ := starMatch_eq_some h
          obtain ⟨t, rfl, ht⟩ := ih hk
          exact ⟨u ++ t, by rw [List.append_assoc], u, t, rfl, hu, ht⟩
      | lpar => exact ih h
      | rpar => exact ih h

theorem fits_append {p q : Pattern} :
    ∀ {t : Str}, Pattern.Fits (p ++ q) t →
      ∃ u v, t = u ++ v ∧ Pattern.Fits p u ∧ Pattern.Fits q v := by
  induction p with
  | nil =>
      intro t h
      exact ⟨[], t, rfl, rfl, h⟩
  | cons i p ih =>
      intro t h
      cases i with
      | one a =>
          obtain ⟨c, w, rfl, hc, hw⟩ := h
          obtain ⟨u, v, rfl, hu, hv⟩ := ih hw
          exact ⟨c :: u, v, rfl, ⟨c, u, rfl, hc, hu⟩, hv⟩
      | star a =>
          obtain ⟨x, w, rfl, hx, hw⟩ := h
          obtain ⟨u, v, rfl, hu, hv⟩ := ih hw
          exact ⟨x ++ u, v, by rw [List.append_assoc], ⟨x, u, rfl, hx, hu⟩, hv⟩
      | lpar => exact ih h
      | rpar => exact ih h

theorem fits_lit {w : String} {t : Str} (h : Pattern.Fits (Pattern.lit w) t) : t = w.toList := by
  have hall : ∀ (u : Str) {t : Str}, Pattern.Fits (u.map fun c => .one (.ch c)) t → t = u := by
    intro u
    induction u with
    | nil => exact fun h => h
    | cons c u ih =>
        rintro t ⟨d, v, rfl, hd, hv⟩
        rw [show d = c from eq_of_beq hd, ih hv]
  exact hall w.toList h

/-- What fits holds every literal character of the pattern. -/
theorem Pattern.Fits.mem {p : Pattern} {c : Char} (hc : .one (.ch c) ∈ p) :
    ∀ {t : Str}, Pattern.Fits p t → c ∈ t := by
  induction p with
  | nil => cases hc
  | cons i p ih =>
      intro t h
      rcases List.mem_cons.mp hc with rfl | hrest
      · obtain ⟨d, u, rfl, hd, -⟩ := h
        rw [eq_of_beq hd]
        exact List.mem_cons_self
      · cases i with
        | one a =>
            obtain ⟨d, u, rfl, -, hu⟩ := h
            exact List.mem_cons_of_mem _ (ih hrest hu)
        | star a =>
            obtain ⟨u, v, rfl, -, hv⟩ := h
            exact List.mem_append_right _ (ih hrest hv)
        | lpar => exact ih hrest h
        | rpar => exact ih hrest h

/-- A decimal point in front of a digit. -/
def Pointed (s : Str) : Prop := ∃ d, d.isDigit = true ∧ ['.', d] <:+: s

/-- What fits a pattern that ends in a decimal number has a decimal point. -/
theorem pointed_of_fits {q : Pattern} {t : Str}
    (h : Pattern.Fits (q ++ Pattern.group Pattern.decimal) t) : Pointed t := by
  obtain ⟨u, v, rfl, -, hv⟩ := fits_append h
  obtain ⟨a, t₁, rfl, -, w, t₂, rfl, -, b, t₃, rfl, hb, d, t₄, rfl, hd, -⟩ := hv
  obtain rfl : b = '.' := eq_of_beq hb
  exact ⟨d, hd, u ++ a :: w, t₄, by simp⟩

/-! ### What the groups of a match are -/

/-- The patterns of the groups, with the part of the open one that was seen already. -/
def groupsFrom : Option Pattern → Pattern → List Pattern
  | _, [] => []
  | cur, .one a :: p => groupsFrom (cur.map (· ++ [.one a])) p
  | cur, .star a :: p => groupsFrom (cur.map (· ++ [.star a])) p
  | _, .lpar :: p => groupsFrom (some []) p
  | cur, .rpar :: p => cur.toList ++ groupsFrom none p

/-- The patterns between the parentheses of a pattern. -/
def Pattern.groups (p : Pattern) : List Pattern := groupsFrom none p

theorem fits_of_append {p q : Pattern} :
    ∀ {u v : Str}, Pattern.Fits p u → Pattern.Fits q v → Pattern.Fits (p ++ q) (u ++ v) := by
  induction p with
  | nil =>
      intro u v hu hv
      rw [show u = [] from hu]
      exact hv
  | cons i p ih =>
      intro u v hu hv
      cases i with
      | one a =>
          obtain ⟨c, w, rfl, hc, hw⟩ := hu
          exact ⟨c, w ++ v, rfl, hc, ih hw hv⟩
      | star a =>
          obtain ⟨x, w, rfl, hx, hw⟩ := hu
          exact ⟨x, w ++ v, by rw [List.append_assoc], hx, ih hw hv⟩
      | lpar => exact ih hu hv
      | rpar => exact ih hu hv

theorem fits_plus {a : Atom} {t : Str} (h : Pattern.Fits (Pattern.plus a) t) :
    t ≠ [] ∧ ∀ c ∈ t, a.test c = true := by
  obtain ⟨c, u, rfl, hc, v, w, rfl, hv, hw⟩ := h
  obtain rfl : w = [] := hw
  rw [List.append_nil]
  refine ⟨List.cons_ne_nil c v, fun d hd => ?_⟩
  rcases List.mem_cons.mp hd with rfl | hd
  · exact hc
  · exact hv d hd

/-- What fits a decimal number is digits, a point and digits. -/
theorem fits_decimal {t : Str} (h : Pattern.Fits Pattern.decimal t) :
    ∃ w f, t = w ++ '.' :: f ∧ w ≠ [] ∧ f ≠ [] ∧ (∀ c ∈ w, c.isDigit = true) ∧
      ∀ c ∈ f, c.isDigit = true := by
  obtain ⟨x, f, rfl, hx, hf⟩ := fits_append h
  obtain ⟨w, y, rfl, hw, hy⟩ := fits_append hx
  obtain ⟨d, u, rfl, hd, hu⟩ := hy
  obtain rfl : u = [] := hu
  obtain rfl : d = '.' := eq_of_beq hd
  obtain ⟨hwne, hwd⟩ := fits_plus hw
  obtain ⟨hfne, hfd⟩ := fits_plus hf
  exact ⟨w, f, by simp, hwne, hfne, hwd, hfd⟩

/-- What was matched of the open group fits what was seen of it. -/
inductive OpenFits : Option Pattern → Option Str → Prop where
  | closed : OpenFits none none
  | opened {r : Pattern} {u : Str} (h : Pattern.Fits r u) : OpenFits (some r) (some u)

theorem OpenFits.append {cur : Option Pattern} {u : Option Str} (h : OpenFits cur u) {q : Pattern}
    {v : Str} (hv : Pattern.Fits q v) : OpenFits (cur.map (· ++ q)) (u.map (· ++ v)) := by
  cases h with
  | closed => exact .closed
  | opened hu => exact .opened (fits_of_append hu hv)

theorem groups_of_matchAt {p : Pattern} :
    ∀ {s rest : Str} {g g' : Groups} {cur : Option Pattern}, OpenFits cur g.current →
      matchAt p s g = some (g', rest) →
      ∃ ts, g'.closed = g.closed ++ ts ∧ List.Forall₂ Pattern.Fits (groupsFrom cur p) ts := by
  induction p with
  | nil =>
      intro s rest g g' cur _ h
      cases h
      exact ⟨[], (List.append_nil _).symm, .nil⟩
  | cons i p ih =>
      intro s rest g g' cur hcur h
      obtain ⟨current, closed⟩ := g
      cases i with
      | one a =>
          obtain ⟨c, s', rfl, hc, hk⟩ := matchAt_one_eq_some h
          have hone : Pattern.Fits [.one a] [c] := ⟨c, [], rfl, hc, rfl⟩
          exact ih (g := Groups.push ⟨current, closed⟩ c) (hcur.append hone) hk
      | star a =>
          obtain ⟨u, s', rfl, hu, hk⟩ := starMatch_eq_some h
          have hstar : Pattern.Fits [.star a] u := ⟨u, [], (List.append_nil u).symm, hu, rfl⟩
          exact ih (g := Groups.pushAll ⟨current, closed⟩ u) (hcur.append hstar) hk
      | lpar =>
          have hempty : Pattern.Fits [] [] := rfl
          exact ih (g := Groups.opened ⟨current, closed⟩) (.opened hempty) h
      | rpar =>
          obtain ⟨ts, hts, hfits⟩ := ih (g := Groups.close ⟨current, closed⟩) .closed h
          cases hcur with
          | closed =>
              refine ⟨ts, ?_, hfits⟩
              rw [hts]
              simp [Groups.close]
          | @opened r u hu =>
              refine ⟨u :: ts, ?_, .cons hu hfits⟩
              rw [hts]
              simp [Groups.close]

/-! ### The list of matches -/

section Findall

variable {p : Pattern}

theorem findallFrom_append (t s : Str) : findallFrom p t.length (t ++ s) = findallFrom p 0 s := by
  induction t with
  | nil => rfl
  | cons c t ih => exact ih

/-- A match at the start of the text. -/
theorem findall_append {t rest : Str} {g : Groups} (hne : t ≠ [])
    (h : matchAt p (t ++ rest) .start = some (g, rest)) :
    findall p (t ++ rest) = g.closed :: findall p rest := by
  cases t with
  | nil => exact absurd rfl hne
  | cons c t =>
      rw [findall, List.cons_append, findallFrom]
      rw [List.cons_append] at h
      rw [h]
      show _ :: findallFrom p ((t ++ rest).length - rest.length) (t ++ rest) = _
      rw [List.length_append, Nat.add_sub_cancel, findallFrom_append]
      rfl

theorem findall_cons {c : Char} {s : Str} (h : matchAt p (c :: s) .start = none) :
    findall p (c :: s) = findall p s := by
  rw [findall, findallFrom, h]
  rfl

/-- A text is passed over up to where the first literal of the pattern occurs. -/
theorem findall_skip {c : Char} {u s : Str} (hu : c ∉ u) :
    findall (.one (.ch c) :: p) (u ++ s) = findall (.one (.ch c) :: p) s := by
  induction u with
  | nil => rfl
  | cons d u ih =>
      rw [List.mem_cons, not_or] at hu
      rw [List.cons_append, findall_cons, ih hu.2]
      show (if (d == c) = true then _ else none) = none
      rw [if_neg fun h => hu.1 (eq_of_beq h).symm]

/-- Where nothing fits, nothing is found. -/
theorem findall_eq_nil {s : Str} : (∀ t, t <:+: s → ¬ Pattern.Fits p t) → findall p s = [] := by
  have hnone : ∀ {s : Str}, (∀ t, t <:+: s → ¬ Pattern.Fits p t) → matchAt p s .start = none := by
    intro s h
    match hm : matchAt p s .start with
    | none => rfl
    | some (g, rest) =>
        obtain ⟨t, rfl, ht⟩ := fits_of_matchAt hm
        exact absurd ht (h t (List.prefix_append t rest).isInfix)
  induction s with
  | nil =>
      intro h
      rw [findall, findallFrom, hnone h]
      rfl
  | cons c s ih =>
      intro h
      rw [findall_cons (hnone h)]
      exact ih fun t ht => h t (List.infix_cons ht)

/-- A text without one of the pattern's literals has no match. -/
theorem findall_eq_nil_of_not_mem {c : Char} {s : Str} (hc : .one (.ch c) ∈ p) (hs : c ∉ s) :
    findall p s = [] :=
  findall_eq_nil fun _ ht hfits => hs (ht.subset (hfits.mem hc))

/-- A text without a decimal point has no match with a decimal number in it. -/
theorem findall_eq_nil_of_not_pointed {q : Pattern} {s : Str} (hs : ¬ Pointed s) :
    findall (q ++ Pattern.group Pattern.decimal) s = [] := by
  refine findall_eq_nil fun t ht hfits => hs ?_
  obtain ⟨d, hd, hin⟩ := pointed_of_fits hfits
  exact ⟨d, hd, hin.trans ht⟩

/-- A text in which no match starts, whatever follows. -/
def Pattern.Passes (p : Pattern) (t : Str) : Prop := ∀ s, findall p (t ++ s) = findall p s

/-- A text that is a match with the groups `g`, unless a digit follows. -/
def Pattern.Shows (p : Pattern) (t : Str) (g : List Str) : Prop :=
  ∀ s, Stops s → findall p (t ++ s) = g :: findall p s

theorem passes_of_not_mem {c : Char} {u : Str} (hp : p.head? = some (.one (.ch c))) (hu : c ∉ u) :
    p.Passes u := by
  obtain ⟨p', rfl⟩ := List.head?_eq_some_iff.mp hp
  exact fun _ => findall_skip hu

theorem Pattern.Shows.of_passes {u t : Str} {g : List Str} (hu : p.Passes u) (ht : p.Shows t g) :
    p.Shows (u ++ t) g := by
  intro s hs
  rw [List.append_assoc, hu, ht s hs]

/-- What is listed are the groups of a match. -/
theorem exists_match_of_mem_findallFrom {r : List Str} {s : Str} :
    ∀ {skip : Nat}, r ∈ findallFrom p skip s →
      ∃ s' g rest, matchAt p s' .start = some (g, rest) ∧ r = g.closed := by
  induction s with
  | nil =>
      intro skip h
      rw [findallFrom] at h
      obtain ⟨⟨g, rest⟩, hm, rfl⟩ := Option.map_eq_some_iff.mp (Option.mem_toList.mp h)
      exact ⟨[], g, rest, hm, rfl⟩
  | cons c s ih =>
      intro skip h
      cases skip with
      | succ skip => exact ih h
      | zero =>
          rw [findallFrom] at h
          split at h
          · rename_i g rest hm
            rcases List.mem_cons.mp h with rfl | h
            · exact ⟨c :: s, g, rest, hm, rfl⟩
            · exact ih h
          · exact ih h

/-- The groups of a match fit the patterns between the parentheses. -/
theorem groups_of_mem_findall {r : List Str} {s : Str} (h : r ∈ findall p s) :
    List.Forall₂ Pattern.Fits p.groups r := by
  obtain ⟨s', g, rest, hm, rfl⟩ := exists_match_of_mem_findallFrom h
  obtain ⟨ts, hts, hfits⟩ := groups_of_matchAt .closed hm
  rw [hts]
  exact hfits

/-- One group of a match fits its pattern. -/
theorem fits_of_getElem? {r : List Str} {s t : Str} {q : Pattern} {i : Nat} (h : r ∈ findall p s)
    (hq : p.groups[i]? = some q) (ht : r[i]? = some t) : Pattern.Fits q t := by
  obtain ⟨hi, rfl⟩ := List.getElem?_eq_some_iff.mp hq
  obtain ⟨hi', rfl⟩ := List.getElem?_eq_some_iff.mp ht
  exact (groups_of_mem_findall h).get hi hi'

end Findall

end Python
