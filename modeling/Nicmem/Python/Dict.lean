/-
Dictionaries and the order they enumerate in.

A dictionary is a list of entries with distinct keys, in the order the keys were
first set: setting a key that is already there overwrites its value in place.
What it is *for* is lookup, so everything below the first section speaks of
`get?` only, and two dictionaries are the same one when they answer every lookup
alike.

The language does not say in which order a dictionary or a set enumerates its
keys.  `Enumeration` is one such order.  A program that iterates takes it as an
argument, and a result proved for every `Enumeration` holds for every hash
function and every insertion history.
-/
import Mathlib.Data.List.Dedup
import Mathlib.Data.List.Nodup
import Mathlib.Data.List.Perm.Basic

namespace Python

/-- Entries in the order their keys were first set; no key occurs twice. -/
structure Dict (K V : Type) where
  entries : List (K × V)
  nodup : (entries.map Prod.fst).Nodup

/-- An order in which a dictionary or a set enumerates its keys. -/
structure Enumeration (K : Type) where
  order : List K → List K
  perm : ∀ keys, (order keys).Perm keys

/-- Enumeration in insertion order. -/
def Enumeration.insertion (K : Type) : Enumeration K := ⟨id, fun _ => .refl _⟩

namespace Enumeration

variable {K : Type} (E : Enumeration K)

@[simp] theorem mem_order {keys : List K} {k : K} : k ∈ E.order keys ↔ k ∈ keys :=
  (E.perm keys).mem_iff

theorem nodup_order {keys : List K} (h : keys.Nodup) : (E.order keys).Nodup :=
  (E.perm keys).nodup_iff.mpr h

/-- `list(set(l))`: every element once. -/
def ofSet [DecidableEq K] (l : List K) : List K := E.order l.dedup

@[simp] theorem mem_ofSet [DecidableEq K] {l : List K} {k : K} : k ∈ E.ofSet l ↔ k ∈ l := by
  simp [ofSet]

/-- An enumeration that starts with a given key, where it is there. -/
def first [DecidableEq K] (k : K) : Enumeration K where
  order keys := if k ∈ keys then k :: keys.erase k else keys
  perm keys := by
    split
    · rename_i h
      exact (List.perm_cons_erase h).symm
    · exact .refl _

/-- One enumeration after another. -/
def comp (E E' : Enumeration K) : Enumeration K where
  order keys := E.order (E'.order keys)
  perm keys := (E.perm _).trans (E'.perm keys)

/-- Two keys put in front. -/
theorem order_first_comp_first [DecidableEq K] {a b : K} (hne : a ≠ b) {keys : List K}
    (ha : a ∈ keys)
    (hb : b ∈ keys) :
    ((first a).comp (first b)).order keys = a :: b :: (keys.erase b).erase a := by
  have hb' : (first b).order keys = b :: keys.erase b := if_pos hb
  have ha' : a ∈ b :: keys.erase b := List.mem_cons_of_mem b ((List.mem_erase_of_ne hne).mpr ha)
  show (first a).order ((first b).order keys) = _
  rw [hb']
  refine (if_pos ha').trans ?_
  rw [List.erase_cons_tail (by simpa using hne.symm)]

end Enumeration

namespace Dict

variable {K V : Type}

def empty : Dict K V := ⟨[], List.nodup_nil⟩

instance : Inhabited (Dict K V) := ⟨empty⟩

def keys (d : Dict K V) : List K := d.entries.map Prod.fst

@[simp] theorem keys_empty : (empty : Dict K V).keys = [] := rfl

theorem nodup_keys (d : Dict K V) : d.keys.Nodup := d.nodup

variable [DecidableEq K]

def get? (d : Dict K V) (k : K) : Option V := d.entries.lookup k

/-- The entries with the value of `k` overwritten. -/
private def overwrite (l : List (K × V)) (k : K) (v : V) : List (K × V) :=
  l.map fun e => if e.1 = k then (k, v) else e

private theorem overwrite_keys (l : List (K × V)) (k : K) (v : V) :
    (overwrite l k v).map Prod.fst = l.map Prod.fst := by
  induction l with
  | nil => rfl
  | cons e rest ih =>
      simp only [overwrite, List.map_cons, List.cons.injEq] at ih ⊢
      refine ⟨?_, ih⟩
      by_cases h : e.1 = k
      · rw [if_pos h, h]
      · rw [if_neg h]

/-- `d[k] = v`. -/
def set (d : Dict K V) (k : K) (v : V) : Dict K V :=
  if h : k ∈ d.keys then
    ⟨overwrite d.entries k v, by rw [overwrite_keys]; exact d.nodup⟩
  else
    ⟨d.entries ++ [(k, v)], by
      rw [List.map_append, List.nodup_append]
      refine ⟨d.nodup, by simp, ?_⟩
      intro a ha b hb
      simp only [List.map_cons, List.map_nil, List.mem_singleton] at hb
      subst hb
      rintro rfl
      exact h ha⟩

/-- `d.update(e)`. -/
def update (d e : Dict K V) : Dict K V := e.entries.foldl (fun acc p => acc.set p.1 p.2) d

/-- A dictionary display: the entries set one after another. -/
def ofList (l : List (K × V)) : Dict K V := l.foldl (fun acc p => acc.set p.1 p.2) empty

/-- `d.items()` under an enumeration order. -/
def items (E : Enumeration K) (d : Dict K V) : List (K × V) :=
  (E.order d.keys).filterMap fun k => (d.get? k).map fun v => (k, v)

/-- The two dictionaries are equal as the language compares them. -/
def Same (d e : Dict K V) : Prop := ∀ k, d.get? k = e.get? k

/-! ### Lookup -/

@[simp] theorem get?_empty (k : K) : (empty : Dict K V).get? k = none := rfl

private theorem lookup_mem {l : List (K × V)} (hl : (l.map Prod.fst).Nodup) {k : K} {v : V} :
    l.lookup k = some v ↔ (k, v) ∈ l := by
  induction l with
  | nil => simp
  | cons e rest ih =>
      obtain ⟨a, b⟩ := e
      simp only [List.map_cons, List.nodup_cons] at hl
      rw [List.lookup_cons]
      by_cases hk : k = a
      · subst hk
        have hno : (k, v) ∉ rest := fun hc => hl.1 (List.mem_map_of_mem (f := Prod.fst) hc)
        simp [hno, eq_comm]
      · rw [beq_eq_false_iff_ne.mpr hk]
        simp only [List.mem_cons, Prod.mk.injEq, hk, false_and, false_or]
        exact ih hl.2

theorem get?_eq_some_iff {d : Dict K V} {k : K} {v : V} :
    d.get? k = some v ↔ (k, v) ∈ d.entries := lookup_mem d.nodup

theorem mem_keys_iff {d : Dict K V} {k : K} : k ∈ d.keys ↔ ∃ v, d.get? k = some v := by
  constructor
  · intro h
    obtain ⟨⟨a, v⟩, hmem, rfl⟩ := List.mem_map.mp h
    exact ⟨v, get?_eq_some_iff.mpr hmem⟩
  · rintro ⟨v, hv⟩
    exact List.mem_map_of_mem (f := Prod.fst) (get?_eq_some_iff.mp hv)

theorem get?_eq_none_iff {d : Dict K V} {k : K} : d.get? k = none ↔ k ∉ d.keys := by
  rw [mem_keys_iff]
  cases d.get? k <;> simp

theorem mem_keys_of_get? {d : Dict K V} {k : K} {v : V} (h : d.get? k = some v) : k ∈ d.keys :=
  mem_keys_iff.mpr ⟨v, h⟩

/-! ### Lookup after a write -/

private theorem lookup_overwrite (l : List (K × V)) (k : K) (v : V) (k' : K)
    (h : k ∈ l.map Prod.fst) :
    (overwrite l k v).lookup k' = if k' = k then some v else l.lookup k' := by
  induction l with
  | nil => simp at h
  | cons e rest ih =>
      obtain ⟨a, b⟩ := e
      simp only [overwrite, List.map_cons]
      by_cases ha : a = k
      · subst ha
        simp only [if_true, List.lookup_cons]
        by_cases hk : k' = a
        · simp [hk]
        · rw [beq_eq_false_iff_ne.mpr hk, if_neg hk]
          by_cases hmem : a ∈ rest.map Prod.fst
          · have := ih hmem
            rwa [if_neg hk] at this
          · have hid : rest.map (fun e => if e.1 = a then (a, v) else e) = rest := by
              rw [List.map_congr_left (g := id), List.map_id]
              rintro ⟨c, w⟩ he
              refine if_neg ?_
              rintro rfl
              exact hmem (List.mem_map_of_mem (f := Prod.fst) he)
            rw [hid]
      · rw [if_neg ha]
        simp only [List.lookup_cons]
        have hmem : k ∈ rest.map Prod.fst := by
          simpa [Ne.symm ha] using h
        by_cases hka : k' = a
        · subst hka
          simp [ha]
        · rw [beq_eq_false_iff_ne.mpr hka]
          exact ih hmem

theorem get?_set (d : Dict K V) (k : K) (v : V) (k' : K) :
    (d.set k v).get? k' = if k' = k then some v else d.get? k' := by
  unfold set
  split
  · rename_i h
    exact lookup_overwrite d.entries k v k' h
  · rename_i h
    show (d.entries ++ [(k, v)]).lookup k' = _
    rw [List.lookup_append, List.lookup_cons]
    by_cases hk : k' = k
    · subst hk
      have : d.entries.lookup k' = none := get?_eq_none_iff.mpr h
      simp [this]
    · rw [beq_eq_false_iff_ne.mpr hk, if_neg hk, List.lookup_nil, Option.or_none]
      rfl

@[simp] theorem get?_set_self (d : Dict K V) (k : K) (v : V) : (d.set k v).get? k = some v := by
  rw [get?_set, if_pos rfl]

theorem get?_set_ne (d : Dict K V) {k k' : K} (v : V) (h : k' ≠ k) :
    (d.set k v).get? k' = d.get? k' := by
  rw [get?_set, if_neg h]

@[simp] theorem mem_keys_set {d : Dict K V} {k : K} {v : V} {k' : K} :
    k' ∈ (d.set k v).keys ↔ k' = k ∨ k' ∈ d.keys := by
  rw [mem_keys_iff, mem_keys_iff]
  by_cases hk : k' = k
  · subst hk; simp
  · simp [get?_set_ne d v hk, hk]

theorem entries_set_of_not_mem {d : Dict K V} {k : K} (h : k ∉ d.keys) (v : V) :
    (d.set k v).entries = d.entries ++ [(k, v)] := by
  rw [set, dif_neg h]

/-- Setting a key that is there changes its entry in place. -/
theorem entries_set_of_get? {d : Dict K V} {k : K} {c : V} (h : d.get? k = some c) (v : V) :
    ∃ pre post, d.entries = pre ++ (k, c) :: post ∧
      (d.set k v).entries = pre ++ (k, v) :: post := by
  obtain ⟨pre, post, hsplit⟩ := List.append_of_mem (get?_eq_some_iff.mp h)
  have hnodup := d.nodup
  rw [hsplit, List.map_append, List.map_cons, List.nodup_append, List.nodup_cons] at hnodup
  obtain ⟨-, ⟨hpost, -⟩, hpre⟩ := hnodup
  have hkeep : ∀ l : List (K × V), k ∉ l.map Prod.fst → overwrite l k v = l := by
    intro l hl
    have hmap : overwrite l k v = l.map id := by
      refine List.map_congr_left fun e he => if_neg fun heq => hl ?_
      rw [← heq]
      exact List.mem_map_of_mem he
    rw [hmap, List.map_id]
  refine ⟨pre, post, hsplit, ?_⟩
  rw [set, dif_pos (mem_keys_of_get? h)]
  show overwrite d.entries k v = _
  rw [hsplit, overwrite, List.map_append, List.map_cons, if_pos rfl]
  have hpre' : k ∉ pre.map Prod.fst := fun hk => hpre k hk k List.mem_cons_self rfl
  exact congrArg₂ _ (hkeep pre hpre') (congrArg _ (hkeep post hpost))

private theorem get?_foldl_set (l : List (K × V)) (hl : (l.map Prod.fst).Nodup) :
    ∀ (d : Dict K V) (k : K),
      (l.foldl (fun acc p => acc.set p.1 p.2) d).get? k = (l.lookup k).or (d.get? k) := by
  induction l with
  | nil => intro d k; simp
  | cons e rest ih =>
      intro d k
      obtain ⟨a, b⟩ := e
      simp only [List.map_cons, List.nodup_cons] at hl
      rw [List.foldl_cons, ih hl.2, get?_set, List.lookup_cons]
      by_cases hk : k = a
      · subst hk
        have : rest.lookup k = none := by
          rw [List.lookup_eq_none_iff]
          rintro ⟨c, w⟩ hp
          rw [bne_iff_ne]
          rintro rfl
          exact hl.1 (List.mem_map_of_mem (f := Prod.fst) hp)
        simp [this]
      · rw [beq_eq_false_iff_ne.mpr hk, if_neg hk]

/-- The right-hand dictionary wins. -/
theorem get?_update (d e : Dict K V) (k : K) :
    (d.update e).get? k = (e.get? k).or (d.get? k) :=
  get?_foldl_set e.entries e.nodup d k

@[simp] theorem mem_keys_update {d e : Dict K V} {k : K} :
    k ∈ (d.update e).keys ↔ k ∈ e.keys ∨ k ∈ d.keys := by
  simp only [mem_keys_iff, get?_update]
  cases e.get? k <;> simp

/-! ### Enumeration -/

theorem mem_items {E : Enumeration K} {d : Dict K V} {k : K} {v : V} :
    (k, v) ∈ d.items E ↔ d.get? k = some v := by
  unfold items
  rw [List.mem_filterMap]
  constructor
  · rintro ⟨a, -, ha⟩
    obtain ⟨b, hb, hab⟩ := Option.map_eq_some_iff.mp ha
    obtain ⟨rfl, rfl⟩ := Prod.mk.inj hab
    exact hb
  · intro h
    exact ⟨k, by simpa using mem_keys_of_get? h, by simp [h]⟩

theorem map_fst_items (E : Enumeration K) (d : Dict K V) :
    (d.items E).map Prod.fst = E.order d.keys := by
  have hall : ∀ l : List K, (∀ k ∈ l, k ∈ d.keys) →
      (l.filterMap fun k => (d.get? k).map fun v => (k, v)).map Prod.fst = l := by
    intro l
    induction l with
    | nil => intro _; rfl
    | cons k rest ih =>
        intro hl
        obtain ⟨v, hv⟩ := mem_keys_iff.mp (hl k (by simp))
        rw [List.filterMap_cons_some (by rw [hv]; rfl), List.map_cons,
          ih fun x hx => hl x (by simp [hx])]
  exact hall _ fun k hk => by simpa using hk

theorem nodup_map_fst_items (E : Enumeration K) (d : Dict K V) :
    ((d.items E).map Prod.fst).Nodup := by
  rw [map_fst_items]
  exact E.nodup_order d.nodup_keys

theorem nodup_items (E : Enumeration K) (d : Dict K V) : (d.items E).Nodup :=
  (nodup_map_fst_items E d).of_map

/-- Enumeration lists every entry once, in some order. -/
theorem items_perm (E : Enumeration K) (d : Dict K V) : (d.items E).Perm d.entries := by
  refine (List.perm_ext_iff_of_nodup (nodup_items E d) d.nodup.of_map).mpr ?_
  rintro ⟨k, v⟩
  rw [mem_items, get?_eq_some_iff]

/-- A loop over the items in which one round only, that of the key `k`, writes the key `j`. -/
theorem get?_foldl_items {W : Type} {E : Enumeration K} {d : Dict K V} {k j : K} {v : V}
    {step : Dict K W → K × V → Dict K W} {w : W} (hk : d.get? k = some v)
    (hself : ∀ out, (step out (k, v)).get? j = some w)
    (hother : ∀ e ∈ d.items E, e.1 ≠ k → ∀ out, (step out e).get? j = out.get? j)
    (out : Dict K W) : ((d.items E).foldl step out).get? j = some w := by
  have hrun : ∀ (l : List (K × V)) (out : Dict K W), (∀ e ∈ l, e ∈ d.items E) →
      (out.get? j = some w ∨ (k, v) ∈ l) → (l.foldl step out).get? j = some w := by
    intro l
    induction l with
    | nil =>
        rintro out - (h | h)
        · exact h
        · cases h
    | cons e l ih =>
        intro out hall h
        refine ih (step out e) (fun e' he' => hall e' (List.mem_cons_of_mem _ he')) ?_
        have hget := mem_items.mp (hall e List.mem_cons_self)
        by_cases he : e.1 = k
        · -- the items have each key once
          rw [he, hk, Option.some.injEq] at hget
          obtain rfl : e = (k, v) := Prod.ext he hget.symm
          exact Or.inl (hself out)
        · rcases h with h | h
          · exact Or.inl ((hother e (hall e List.mem_cons_self) he out).trans h)
          · rcases List.mem_cons.mp h with rfl | h
            · exact absurd rfl he
            · exact Or.inr h
  exact hrun _ out (fun _ he => he) (Or.inr (mem_items.mpr hk))

/-- A key of the dictionary can be enumerated first. -/
theorem items_first {d : Dict K V} {k : K} {v : V} (h : d.get? k = some v) :
    ∃ rest, d.items (.first k) = (k, v) :: rest := by
  refine ⟨(d.keys.erase k).filterMap fun k => (d.get? k).map fun v => (k, v), ?_⟩
  show (if k ∈ d.keys then k :: d.keys.erase k else d.keys).filterMap _ = _
  rw [if_pos (mem_keys_of_get? h), List.filterMap_cons_some (by rw [h]; rfl)]

private theorem entries_foldl_set (l : List (K × V)) :
    ∀ d : Dict K V, (l.map Prod.fst).Nodup → (∀ k ∈ l.map Prod.fst, k ∉ d.keys) →
      (l.foldl (fun acc p => acc.set p.1 p.2) d).entries = d.entries ++ l := by
  induction l with
  | nil => intro d _ _; simp
  | cons e rest ih =>
      intro d hl hfresh
      simp only [List.map_cons, List.nodup_cons] at hl
      have hset : (d.set e.1 e.2).entries = d.entries ++ [e] :=
        entries_set_of_not_mem (hfresh e.1 (by simp)) e.2
      rw [List.foldl_cons, ih _ hl.2 ?_, hset, List.append_assoc, List.singleton_append]
      intro k hk
      rw [mem_keys_set, not_or]
      refine ⟨?_, hfresh k (by simp [hk])⟩
      rintro rfl
      exact hl.1 hk

/-- Setting distinct keys one after another lists them in that order. -/
theorem entries_ofList {l : List (K × V)} (h : (l.map Prod.fst).Nodup) :
    (ofList l).entries = l := by
  rw [ofList, entries_foldl_set l empty h (by simp)]
  rfl

/-- A dictionary built from distinct keys enumerates what it was built from. -/
theorem items_ofList_perm (E : Enumeration K) {l : List (K × V)} (h : (l.map Prod.fst).Nodup) :
    ((ofList l).items E).Perm l := by
  have hperm := items_perm E (ofList l)
  rwa [entries_ofList h] at hperm

end Dict

end Python
