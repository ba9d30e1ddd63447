import Mathlib.Data.List.Basic

/-!
Loops over a list whose body may fail, and the results of those that do not.
-/

namespace Traverse

theorem bind_eq_ok {ε α β : Type} {x : Except ε α} {next : α → Except ε β} {b : β} :
    (x >>= next) = .ok b ↔ ∃ a, x = .ok a ∧ next a = .ok b := by
  cases x with
  | ok a => exact ⟨fun h => ⟨a, rfl, h⟩, fun ⟨_, rfl, h⟩ => h⟩
  | error reason => exact ⟨fun h => (by cases h), fun ⟨_, h, _⟩ => (by cases h)⟩

/-- A loop whose body is a loop. -/
theorem foldlM_flatMap {m : Type → Type} [Monad m] [LawfulMonad m] {α β σ : Type}
    {body : σ → α → m σ} {inner : α → List β} {innerBody : σ → β → m σ} {xs : List α} {s : σ}
    (h : ∀ x ∈ xs, ∀ s, body s x = (inner x).foldlM innerBody s) :
    xs.foldlM body s = (xs.flatMap inner).foldlM innerBody s := by
  induction xs generalizing s with
  | nil => rfl
  | cons x xs ih =>
      obtain ⟨hx, hxs⟩ := List.forall_mem_cons.mp h
      rw [List.foldlM_cons, List.flatMap_cons, List.foldlM_append, hx s]
      exact bind_congr fun s => ih hxs

variable {α β : Type*} {f : α → Option β} {xs : List α} {ys : List β}

theorem mapM_eq_some_iff : xs.mapM f = some ys ↔ xs.map f = ys.map some := by
  induction xs generalizing ys with
  | nil => cases ys <;> simp
  | cons x xs ih =>
      cases ys with
      | nil => simp [Option.bind_eq_some_iff]
      | cons y ys => simp [Option.bind_eq_some_iff, ih]

/-- Every result comes from an element. -/
theorem exists_of_mem (h : xs.mapM f = some ys) {y : β} (hy : y ∈ ys) :
    ∃ x ∈ xs, f x = some y := by
  have hmem : some y ∈ xs.map f := by
    rw [mapM_eq_some_iff.mp h]
    exact List.mem_map_of_mem hy
  simpa using hmem

/-- Every element has a result. -/
theorem mem_of_mem (h : xs.mapM f = some ys) {x : α} (hx : x ∈ xs) :
    ∃ y ∈ ys, f x = some y := by
  have hmem : f x ∈ ys.map some := by
    rw [← mapM_eq_some_iff.mp h]
    exact List.mem_map_of_mem hx
  obtain ⟨y, hy, heq⟩ := List.mem_map.mp hmem
  exact ⟨y, hy, heq.symm⟩

theorem isSome_of_forall (h : ∀ x ∈ xs, (f x).isSome) : (xs.mapM f).isSome := by
  induction xs with
  | nil => simp
  | cons x xs ih =>
      obtain ⟨y, hy⟩ := Option.isSome_iff_exists.mp (h x (by simp))
      obtain ⟨ys, hys⟩ := Option.isSome_iff_exists.mp (ih fun z hz => h z (by simp [hz]))
      simp [hy, hys]

/-- A function whose results agree in some respect makes a list that does. -/
theorem mapM_agree {γ : Type*} (h : xs.mapM f = some ys) {g : α → Option β} (q : β → γ)
    (hfg : ∀ x y, f x = some y → ∃ y', g x = some y' ∧ q y' = q y) :
    ∃ ys', xs.mapM g = some ys' ∧ ys'.map q = ys.map q := by
  induction xs generalizing ys with
  | nil =>
      obtain rfl : [] = ys := Option.some.inj h
      exact ⟨[], rfl, rfl⟩
  | cons x xs ih =>
      rw [List.mapM_cons] at h
      obtain ⟨y, hy, h⟩ := Option.bind_eq_some_iff.mp h
      obtain ⟨rest, hrest, h⟩ := Option.bind_eq_some_iff.mp h
      obtain rfl : y :: rest = ys := Option.some.inj h
      obtain ⟨y', hy', hq⟩ := hfg x y hy
      obtain ⟨rest', hrest', hqs⟩ := ih hrest
      exact ⟨y' :: rest', by simp [hy', hrest'], by simp [hq, hqs]⟩

theorem mapM_mono (h : xs.mapM f = some ys) {g : α → Option β}
    (hfg : ∀ x y, f x = some y → g x = some y) : xs.mapM g = some ys := by
  obtain ⟨ys', hys', hsame⟩ := mapM_agree h id fun x y hy => ⟨y, hfg x y hy, rfl⟩
  rw [List.map_id, List.map_id] at hsame
  rw [hys', hsame]

/-- What is known of each element is known of the list. -/
theorem map_eq {γ : Type*} (h : xs.mapM f = some ys) {p : α → γ} {q : β → γ}
    (hpq : ∀ x y, f x = some y → q y = p x) : ys.map q = xs.map p := by
  induction xs generalizing ys with
  | nil =>
      obtain rfl : [] = ys := Option.some.inj h
      rfl
  | cons x xs ih =>
      rw [List.mapM_cons] at h
      obtain ⟨y, hy, h⟩ := Option.bind_eq_some_iff.mp h
      obtain ⟨rest, hrest, h⟩ := Option.bind_eq_some_iff.mp h
      obtain rfl : y :: rest = ys := Option.some.inj h
      rw [List.map_cons, List.map_cons, hpq x y hy, ih hrest]

/-- A loop keeps counts, when each element counts as its result does. -/
theorem countP_eq (h : xs.mapM f = some ys) {p : α → Bool} {q : β → Bool}
    (hpq : ∀ x ∈ xs, ∀ y, f x = some y → p x = q y) : xs.countP p = ys.countP q := by
  induction xs generalizing ys with
  | nil =>
      obtain rfl : [] = ys := Option.some.inj h
      rfl
  | cons x xs ih =>
      simp only [List.mapM_cons, Option.bind_eq_bind, Option.bind_eq_some_iff,
        Option.pure_def, Option.some.injEq] at h
      obtain ⟨y, hy, rest, hrest, rfl⟩ := h
      have hhead := hpq x (by simp) y hy
      have htail := ih hrest fun x' hx' => hpq x' (by simp [hx'])
      simp only [List.countP_cons, hhead, htail]

section Flatten

variable {γ : Type*} {f : α → Option (List β)} {lists : List (List β)} {g : β → Option γ}

theorem filterMap_flatten_eq_nil (h : xs.mapM f = some lists)
    (hnone : ∀ x ∈ xs, ∀ ys, f x = some ys → ys.filterMap g = []) :
    lists.flatten.filterMap g = [] := by
  rw [List.filterMap_eq_nil_iff]
  intro y hy
  obtain ⟨ys, hys, hmem⟩ := List.mem_flatten.mp hy
  obtain ⟨x, hx, heq⟩ := exists_of_mem h hys
  exact List.filterMap_eq_nil_iff.mp (hnone x hx ys heq) y hmem

/-- A loop that collects lists, of which only that of one element has anything
to do with `g`. -/
theorem filterMap_flatten_eq (h : xs.mapM f = some lists) (hnodup : xs.Nodup) {x : α}
    (hx : x ∈ xs) {result : List γ} (hself : ∀ ys, f x = some ys → ys.filterMap g = result)
    (hother : ∀ x' ∈ xs, x' ≠ x → ∀ ys, f x' = some ys → ys.filterMap g = []) :
    lists.flatten.filterMap g = result := by
  induction xs generalizing lists with
  | nil => cases hx
  | cons head rest ih =>
      obtain ⟨hhead, hrest⟩ := List.nodup_cons.mp hnodup
      simp only [List.mapM_cons, Option.bind_eq_bind, Option.bind_eq_some_iff,
        Option.pure_def, Option.some.injEq] at h
      obtain ⟨ys, hys, others, hothers, rfl⟩ := h
      have hlater : ∀ x' ∈ rest, x' ≠ x → ∀ ys, f x' = some ys → ys.filterMap g = [] :=
        fun x' hx' => hother x' (List.mem_cons_of_mem _ hx')
      rw [List.flatten_cons, List.filterMap_append]
      by_cases heq : head = x
      · subst heq
        have hempty := filterMap_flatten_eq_nil hothers fun x' hx' =>
          hlater x' hx' (ne_of_mem_of_not_mem hx' hhead)
        rw [hself ys hys, hempty, List.append_nil]
      · rw [hother head (by simp) heq ys hys, List.nil_append]
        exact ih hothers hrest ((List.mem_cons.mp hx).resolve_left (Ne.symm heq)) hlater

end Flatten

theorem foldlM_isSome {f : β → α → Option β} (h : ∀ y, ∀ x ∈ xs, (f y x).isSome) (y : β) :
    (xs.foldlM f y).isSome := by
  induction xs generalizing y with
  | nil => rfl
  | cons x xs ih =>
      obtain ⟨next, hnext⟩ := Option.isSome_iff_exists.mp (h y x (by simp))
      simpa [hnext] using ih (fun z x' hx' => h z x' (by simp [hx'])) next

/-- Results that correspond, of computations that go on in corresponding ways. -/
theorem rel_bind {α' β' : Type*} {r : α → α' → Prop} {s : β → β' → Prop} {x : Option α}
    {x' : Option α'} (h : Option.Rel r x x') {g : α → Option β} {g' : α' → Option β'}
    (hg : ∀ y y', r y y' → Option.Rel s (g y) (g' y')) :
    Option.Rel s (x.bind g) (x'.bind g') := by
  cases h with
  | none => exact .none
  | some hr => exact hg _ _ hr

theorem eq_of_rel {x x' : Option α} (h : Option.Rel Eq x x') : x = x' := by
  cases h with
  | none => rfl
  | some heq => rw [heq]

theorem rel_map {α' β' : Type*} {r : α → α' → Prop} {s : β → β' → Prop} {x : Option α}
    {x' : Option α'} (h : Option.Rel r x x') {g : α → β} {g' : α' → β'}
    (hg : ∀ y y', r y y' → s (g y) (g' y')) : Option.Rel s (x.map g) (x'.map g') := by
  cases h with
  | none => exact .none
  | some hr => exact .some (hg _ _ hr)

/-- The order of the list does not matter, but for the order of the results. -/
theorem mapM_perm {xs' : List α} (h : xs.Perm xs') :
    Option.Rel List.Perm (xs.mapM f) (xs'.mapM f) := by
  induction h with
  | nil => exact .some .nil
  | @cons x rest rest' _ ih =>
      simp only [List.mapM_cons]
      generalize rest.mapM f = ys at ih ⊢
      generalize rest'.mapM f = ys' at ih ⊢
      cases f x with
      | none => exact .none
      | some y =>
          cases ih with
          | none => exact .none
          | some hperm => exact .some (hperm.cons y)
  | swap x y rest =>
      simp only [List.mapM_cons]
      cases f x with
      | none => cases f y <;> exact .none
      | some z =>
          cases f y with
          | none => exact .none
          | some w =>
              cases rest.mapM f with
              | none => exact .none
              | some zs => exact .some (.swap z w zs)
  | @trans first middle last _ _ ih ih' =>
      generalize first.mapM f = ys at ih ⊢
      generalize middle.mapM f = ys' at ih ih'
      generalize last.mapM f = ys'' at ih' ⊢
      cases ih with
      | none => exact ih'
      | some hperm =>
          cases ih' with
          | some hperm' => exact .some (hperm.trans hperm')

end Traverse
