/-
Loops that fill a dictionary, and merging dictionaries.

A reader is a loop over lines that sets keys, and what is known of its result is
what every write satisfies: `Dict.All` is that statement and the rules for it follow
the operations.  A loop that may raise is a fold in `Option`; `foldlM_invariant` is
its induction rule.

Merging is `update` once per dictionary, so for each key the last dictionary that
has it decides.  The order does not matter among dictionaries that agree,
`merge_same_of_agree`, and otherwise any of them can be made the last one.
-/
import Mathlib.Data.List.Induction
import Nicmem.Python.Dict

namespace Python

/-! ### Loops that may raise -/

/-- An invariant of every step that returns is one of the loop. -/
theorem foldlM_invariant {σ α : Type} {f : σ → α → Option σ} (Inv : σ → Prop) {l : List α}
    (hstep : ∀ s, Inv s → ∀ a ∈ l, ∀ s', f s a = some s' → Inv s') :
    ∀ {s s' : σ}, Inv s → l.foldlM f s = some s' → Inv s' := by
  induction l with
  | nil =>
      intro s s' hs h
      cases h
      exact hs
  | cons a rest ih =>
      intro s s' hs h
      rw [List.foldlM_cons] at h
      cases ha : f s a with
      | none => simp [ha] at h
      | some t =>
          simp only [ha, Option.bind_eq_bind, Option.bind_some] at h
          exact ih (fun s hs b hb => hstep s hs b (by simp [hb])) (hstep s hs a (by simp) t ha) h

/-- An invariant of every step is one of the loop. -/
theorem foldl_invariant {σ α : Type} {f : σ → α → σ} (Inv : σ → Prop) {l : List α}
    (hstep : ∀ s, Inv s → ∀ a ∈ l, Inv (f s a)) {s : σ} (hs : Inv s) : Inv (l.foldl f s) := by
  induction l generalizing s with
  | nil => exact hs
  | cons a rest ih =>
      rw [List.foldl_cons]
      exact ih (fun s hs b hb => hstep s hs b (by simp [hb])) (hstep s hs a (by simp))

/-- A loop whose steps all return is a loop that cannot raise. -/
theorem foldlM_eq_foldl {σ α : Type} {f : σ → α → Option σ} {g : σ → α → σ} {l : List α}
    (h : ∀ a ∈ l, ∀ s, f s a = some (g s a)) : ∀ s, l.foldlM f s = some (l.foldl g s) := by
  induction l with
  | nil => intro s; rfl
  | cons a rest ih =>
      intro s
      rw [List.foldlM_cons, h a (by simp)]
      exact ih (fun b hb => h b (by simp [hb])) _

/-- The same of a loop over what is computed from each element. -/
theorem foldlM_map_eq {σ α β : Type} {g : α → Option β} {h : α → β} (f : σ → β → σ) {l : List α}
    (hg : ∀ a ∈ l, g a = some (h a)) (s : σ) :
    l.foldlM (fun s a => (g a).map (f s)) s = some ((l.map h).foldl f s) := by
  rw [List.foldl_map]
  refine foldlM_eq_foldl (fun a ha s => ?_) s
  rw [hg a ha, Option.map_some]

/-- A loop raises when one of its steps does, whatever has been done before. -/
theorem foldlM_eq_none {σ α : Type} {f : σ → α → Option σ} {l : List α}
    (h : ∃ a ∈ l, ∀ s, f s a = none) : ∀ s, l.foldlM f s = none := by
  induction l with
  | nil => obtain ⟨a, ha, -⟩ := h; simp at ha
  | cons a rest ih =>
      intro s
      rw [List.foldlM_cons]
      cases ha : f s a with
      | none => rfl
      | some s' =>
          obtain ⟨c, hc, hcn⟩ := h
          have hc' : c ∈ rest := by
            rcases List.mem_cons.mp hc with rfl | hc
            · rw [hcn] at ha; cases ha
            · exact hc
          exact ih ⟨c, hc', hcn⟩ _

/-- The same of a loop over what is computed from each element. -/
theorem foldlM_map_eq_none {σ α β : Type} {g : α → Option β} (f : σ → β → σ) {l : List α}
    (hg : ∃ a ∈ l, g a = none) (s : σ) : l.foldlM (fun s a => (g a).map (f s)) s = none := by
  obtain ⟨a, ha, hnone⟩ := hg
  refine foldlM_eq_none ⟨a, ha, fun s => ?_⟩ s
  rw [hnone, Option.map_none]

/-- Steps that all return give the list of what they return. -/
theorem mapM_eq_some_map {α β : Type} (l : List α) (f : α → Option β) (g : α → β)
    (h : ∀ x ∈ l, f x = some (g x)) : l.mapM f = some (l.map g) := by
  induction l with
  | nil => rfl
  | cons x rest ih =>
      rw [List.mapM_cons, h x (by simp), ih fun y hy => h y (by simp [hy])]
      rfl

namespace Dict

variable {K V : Type} [DecidableEq K]

/-! ### What holds of every entry -/

/-- Every entry of the dictionary satisfies `P`. -/
def All (P : K → V → Prop) (d : Dict K V) : Prop := ∀ k v, d.get? k = some v → P k v

variable {P : K → V → Prop}

theorem All.empty : (empty : Dict K V).All P := by
  intro k v h
  simp at h

theorem All.set {d : Dict K V} (hd : d.All P) {k : K} {v : V} (h : P k v) : (d.set k v).All P := by
  intro k' v' hget
  rw [get?_set] at hget
  by_cases hk : k' = k
  · rw [if_pos hk] at hget
    cases hget
    exact hk ▸ h
  · rw [if_neg hk] at hget
    exact hd k' v' hget

theorem All.imp {Q : K → V → Prop} {d : Dict K V} (hd : d.All P) (h : ∀ k v, P k v → Q k v) :
    d.All Q := fun k v hget => h k v (hd k v hget)

theorem All.items {E : Enumeration K} {d : Dict K V} (hd : d.All P) :
    ∀ e ∈ d.items E, P e.1 e.2 := fun e he => hd e.1 e.2 (mem_items.mp he)

theorem All.ofList {l : List (K × V)} (h : ∀ e ∈ l, P e.1 e.2) : (ofList l).All P :=
  foldl_invariant (fun d : Dict K V => d.All P) (fun _ hd e he => hd.set (h e he)) All.empty

/-! ### Which keys a loop writes -/

omit [DecidableEq K] in
/-- The keys after a loop: those before it, and those its rounds write. -/
theorem mem_keys_foldl {α : Type} {step : Dict K V → α → Dict K V} (writes : α → K → Prop)
    {k : K} (hstep : ∀ d a, k ∈ (step d a).keys ↔ k ∈ d.keys ∨ writes a k) :
    ∀ (l : List α) (d : Dict K V),
      k ∈ (l.foldl step d).keys ↔ k ∈ d.keys ∨ ∃ a ∈ l, writes a k := by
  intro l
  induction l with
  | nil => intro d; simp
  | cons a rest ih =>
      intro d
      rw [List.foldl_cons, ih, hstep]
      simp only [List.mem_cons, exists_eq_or_imp, or_assoc]

/-- Dictionaries that are the same have the same entries. -/
theorem entries_perm_of_same {d e : Dict K V} (h : d.Same e) : d.entries.Perm e.entries := by
  refine (List.perm_ext_iff_of_nodup (.of_map Prod.fst d.nodup) (.of_map Prod.fst e.nodup)).mpr ?_
  rintro ⟨k, v⟩
  rw [← get?_eq_some_iff, ← get?_eq_some_iff, h k]

/-- A loop that sets every key of a dictionary maps its values. -/
theorem get?_foldl_set_items {W : Type} (g : K → V → W) (E : Enumeration K) (d : Dict K V)
    (start : Dict K W) (k : K) :
    ((d.items E).foldl (fun out e => out.set e.1 (g e.1 e.2)) start).get? k =
      ((d.get? k).map (g k)).or (start.get? k) := by
  cases hk : d.get? k with
  | some v =>
      refine get?_foldl_items hk (fun out => ?_) (fun e _ hne out => ?_) _
      · exact get?_set_self _ _ _
      · exact get?_set_ne _ _ (Ne.symm hne)
  | none =>
      refine foldl_invariant (fun out : Dict K W => out.get? k = start.get? k) ?_ rfl
      intro out hout e he
      have hne : k ≠ e.1 := by
        rintro rfl
        rw [mem_items.mp he] at hk
        cases hk
      rw [get?_set_ne _ _ hne, hout]

omit [DecidableEq K] in
/-- The same of a loop that may raise. -/
theorem mem_keys_foldlM {α : Type} {step : Dict K V → α → Option (Dict K V)}
    (writes : α → K → Prop) {k : K}
    (hstep : ∀ d a d', step d a = some d' → (k ∈ d'.keys ↔ k ∈ d.keys ∨ writes a k)) :
    ∀ {l : List α} {d d' : Dict K V}, l.foldlM step d = some d' →
      (k ∈ d'.keys ↔ k ∈ d.keys ∨ ∃ a ∈ l, writes a k) := by
  intro l
  induction l with
  | nil =>
      intro d d' h
      cases h
      simp
  | cons a rest ih =>
      intro d d' h
      rw [List.foldlM_cons, Option.bind_eq_bind, Option.bind_eq_some_iff] at h
      obtain ⟨mid, ha, hrest⟩ := h
      rw [ih hrest, hstep _ _ _ ha]
      simp only [List.mem_cons, exists_eq_or_imp, or_assoc]

/-! ### Merging -/

/-- The dictionaries merged into an empty one, from the left. -/
def merge (ds : List (Dict K V)) : Dict K V := ds.foldl update empty

theorem get?_merge_concat (ds : List (Dict K V)) (e : Dict K V) (k : K) :
    (merge (ds ++ [e])).get? k = (e.get? k).or ((merge ds).get? k) := by
  rw [merge, List.foldl_append, List.foldl_cons, List.foldl_nil, get?_update]
  rfl

/-- Every value of a merge comes from one of the dictionaries. -/
theorem exists_of_get?_merge {ds : List (Dict K V)} {k : K} {v : V} :
    (merge ds).get? k = some v → ∃ d ∈ ds, d.get? k = some v := by
  induction ds using List.reverseRecOn with
  | nil => intro h; simp [merge] at h
  | append_singleton ds e ih =>
      intro h
      rw [get?_merge_concat] at h
      cases he : e.get? k with
      | some w =>
          rw [he, Option.some_or] at h
          exact ⟨e, by simp, by rw [he, h]⟩
      | none =>
          rw [he, Option.none_or] at h
          obtain ⟨d, hd, hv⟩ := ih h
          exact ⟨d, by simp [hd], hv⟩

theorem mem_keys_merge {ds : List (Dict K V)} {k : K} :
    k ∈ (merge ds).keys ↔ ∃ d ∈ ds, k ∈ d.keys := by
  constructor
  · intro h
    obtain ⟨v, hv⟩ := mem_keys_iff.mp h
    obtain ⟨d, hd, hdv⟩ := exists_of_get?_merge hv
    exact ⟨d, hd, mem_keys_of_get? hdv⟩
  · rintro ⟨d, hd, hk⟩
    induction ds using List.reverseRecOn with
    | nil => simp at hd
    | append_singleton ds e ih =>
        rw [mem_keys_iff]
        simp only [get?_merge_concat]
        cases he : e.get? k with
        | some w => exact ⟨w, rfl⟩
        | none =>
            have hd' : d ∈ ds := by
              rcases List.mem_append.mp hd with h | h
              · exact h
              · rw [List.mem_singleton.mp h] at hk
                exact absurd hk (get?_eq_none_iff.mp he)
            simpa using mem_keys_iff.mp (ih hd')

/-- No key has different values in the two dictionaries. -/
def Agree (d e : Dict K V) : Prop := ∀ k v w, d.get? k = some v → e.get? k = some w → v = w

theorem Agree.symm {d e : Dict K V} (h : d.Agree e) : e.Agree d :=
  fun k v w hv hw => (h k w v hw hv).symm

theorem Agree.refl (d : Dict K V) : d.Agree d := by
  intro k v w hv hw
  rw [hv] at hw
  exact Option.some.inj hw

/-- Among dictionaries that agree, a merge has every value of each. -/
theorem get?_merge_of_agree {ds : List (Dict K V)} (hag : ∀ d ∈ ds, ∀ e ∈ ds, Agree d e)
    {d : Dict K V} (hd : d ∈ ds) {k : K} {v : V} (hv : d.get? k = some v) :
    (merge ds).get? k = some v := by
  obtain ⟨w, hw⟩ := mem_keys_iff.mp (mem_keys_merge.mpr ⟨d, hd, mem_keys_of_get? hv⟩)
  obtain ⟨e, he, hew⟩ := exists_of_get?_merge hw
  rw [hw, hag d hd e he k v w hv hew]

theorem merge_same_of_agree {ds es : List (Dict K V)} (hag : ∀ d ∈ ds, ∀ e ∈ ds, Agree d e)
    (hp : ds.Perm es) : (merge ds).Same (merge es) := by
  intro k
  have hag' : ∀ d ∈ es, ∀ e ∈ es, Agree d e :=
    fun d hd e he => hag d (hp.mem_iff.mpr hd) e (hp.mem_iff.mpr he)
  cases h : (merge es).get? k with
  | some v =>
      obtain ⟨d, hd, hv⟩ := exists_of_get?_merge h
      exact get?_merge_of_agree hag (hp.mem_iff.mpr hd) hv
  | none =>
      rw [get?_eq_none_iff, mem_keys_merge] at h ⊢
      rintro ⟨d, hd, hk⟩
      exact h ⟨d, hp.mem_iff.mp hd, hk⟩

/-- A dictionary merged last decides every key it has. -/
theorem get?_merge_last {ds : List (Dict K V)} {d : Dict K V} {k : K} {v : V}
    (h : d.get? k = some v) : (merge (ds ++ [d])).get? k = some v := by
  rw [get?_merge_concat, h, Option.some_or]

end Dict

/-- Any element of a list can be listed last. -/
theorem exists_perm_concat {α : Type} {l : List α} {a : α} (h : a ∈ l) :
    ∃ rest, (rest ++ [a]).Perm l := by
  obtain ⟨s, t, rfl⟩ := List.append_of_mem h
  refine ⟨s ++ t, ?_⟩
  rw [List.append_assoc]
  exact (List.perm_append_singleton a t).append_left s

end Python
