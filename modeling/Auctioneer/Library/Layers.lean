import Mathlib.Data.List.Infix

/-!
Layers over what is read at the places of a tree. A layer is put at a path: at
and below it the layer says what is there, and one that says anything leaves
nothing above it. What a stack of layers says does not depend on what is under it.
-/

namespace Layers

variable {κ V : Type*} [DecidableEq κ]

structure Layer (κ V : Type*) where
  path : List κ
  /-- What is at a place below the path. -/
  reading : List κ → Option V

namespace Layer

def Full (layer : Layer κ V) : Prop := ∃ place, layer.reading place ≠ none

open Classical in
/-- What is read with a layer on top. -/
noncomputable def covering (layer : Layer κ V) (base : List κ → Option V) : List κ → Option V :=
  fun place =>
    if layer.path <+: place then layer.reading (place.drop layer.path.length)
    else if layer.Full ∧ place <+: layer.path then none
    else base place

open Classical in
/-- What is said with a layer on top: of some places nothing is. -/
noncomputable def onTop (layer : Layer κ V) (said : List κ → Option (Option V)) :
    List κ → Option (Option V) :=
  fun place =>
    if layer.path <+: place then some (layer.reading (place.drop layer.path.length))
    else if layer.Full ∧ place <+: layer.path then (said place).map fun _ => none
    else said place

end Layer

/-- The last layer is the top one. -/
noncomputable def stack (layers : List (Layer κ V)) (base : List κ → Option V) :
    List κ → Option V :=
  layers.foldl (fun base layer => layer.covering base) base

noncomputable def said (layers : List (Layer κ V)) : List κ → Option (Option V) :=
  layers.foldl (fun said layer => layer.onTop said) fun _ => none

/-- Nothing is on the way to a layer. -/
def Clear (base : List κ → Option V) (layers : List (Layer κ V)) : Prop :=
  ∀ layer ∈ layers, ∀ place, place <+: layer.path → place ≠ layer.path → base place = none

variable {layer : Layer κ V} {layers first later : List (Layer κ V)} {base : List κ → Option V}
  {place : List κ}

@[simp] theorem said_nil : said ([] : List (Layer κ V)) place = none := rfl

theorem said_concat : said (layers ++ [layer]) place = layer.onTop (said layers) place := by
  rw [said, List.foldl_append]
  rfl

theorem said_append :
    said (first ++ later) = later.foldl (fun said layer => layer.onTop said) (said first) := by
  rw [said, List.foldl_append]
  rfl

theorem onTop_below (said : List κ → Option (Option V)) (h : layer.path <+: place) :
    layer.onTop said place = some (layer.reading (place.drop layer.path.length)) :=
  if_pos h

/-- A layer does not change what is said apart from it. -/
theorem onTop_apart {said : List κ → Option (Option V)} (hbelow : ¬layer.path <+: place)
    (habove : place <+: layer.path → said place = none) :
    layer.onTop said place = said place := by
  rw [Layer.onTop, if_neg hbelow]
  split
  · next h => rw [habove h.2, Option.map_none]
  · rfl

theorem covering_below (base : List κ → Option V) (h : layer.path <+: place) :
    layer.covering base place = layer.reading (place.drop layer.path.length) :=
  if_pos h

theorem covering_above (base : List κ → Option V) (hbelow : ¬layer.path <+: place)
    (h : layer.Full ∧ place <+: layer.path) : layer.covering base place = none := by
  rw [Layer.covering, if_neg hbelow, if_pos h]

theorem covering_apart (base : List κ → Option V) (hbelow : ¬layer.path <+: place)
    (h : ¬(layer.Full ∧ place <+: layer.path)) : layer.covering base place = base place := by
  rw [Layer.covering, if_neg hbelow, if_neg h]

/-- Where a base is seen below a root, a layer below it covers the base. -/
theorem onTop_append {said : List κ → Option (Option V)} {root path below : List κ}
    {reading : List κ → Option V} (h : said (root ++ below) = some (base below)) :
    Layer.onTop ⟨root ++ path, reading⟩ said (root ++ below) =
      some (Layer.covering ⟨path, reading⟩ base below) := by
  have hpath : root ++ path <+: root ++ below ↔ path <+: below := List.prefix_append_right_inj root
  have hbelow : root ++ below <+: root ++ path ↔ below <+: path := List.prefix_append_right_inj root
  have hdrop : (root ++ below).drop (root ++ path).length = below.drop path.length := by
    rw [List.length_append, ← List.drop_drop, List.drop_left]
  by_cases hcovers : path <+: below
  · rw [onTop_below _ (hpath.mpr hcovers), covering_below _ hcovers]
    exact congrArg _ (congrArg _ hdrop)
  · by_cases habove : (∃ place, reading place ≠ none) ∧ below <+: path
    · have hnone : Layer.covering ⟨path, reading⟩ base below = none :=
        covering_above base hcovers habove
      rw [hnone, Layer.onTop, if_neg (mt hpath.mp hcovers),
        if_pos ⟨habove.1, hbelow.mpr habove.2⟩, h, Option.map_some]
    · have hkept : Layer.covering ⟨path, reading⟩ base below = base below :=
        covering_apart base hcovers habove
      rw [hkept, Layer.onTop, if_neg (mt hpath.mp hcovers),
        if_neg fun hmet => habove ⟨hmet.1, hbelow.mp hmet.2⟩, h]

theorem isSome_onTop (said : List κ → Option (Option V)) :
    (layer.onTop said place).isSome ↔ layer.path <+: place ∨ (said place).isSome := by
  rw [Layer.onTop]
  split
  · next h => simp [h]
  · next h => split <;> simp [h]

/-- Something is said of the places below the layers. -/
theorem isSome_said : (said layers place).isSome ↔ ∃ layer ∈ layers, layer.path <+: place := by
  induction layers using List.reverseRecOn with
  | nil => simp
  | append_singleton layers layer ih =>
      rw [said_concat, isSome_onTop, ih]
      simp [or_comm]

theorem stack_congr_onTop {said : List κ → Option (Option V)} (hclear : Clear base [layer])
    {under : List κ → Option V} (h : ∀ place, under place = (said place).getD (base place)) :
    layer.covering under place = (layer.onTop said place).getD (base place) := by
  rw [Layer.covering, Layer.onTop]
  split
  · rfl
  · next hnot =>
    split
    · next habove =>
      have hne : place ≠ layer.path := fun heq => hnot (heq ▸ List.prefix_rfl)
      have hnone := hclear layer List.mem_cons_self place habove.2 hne
      cases said place <;> simp [hnone]
    · exact h place

/-- Over a base that is clear of them, the layers are seen and where they say
nothing, the base. -/
theorem stack_eq (h : Clear base layers) (place : List κ) :
    stack layers base place = (said layers place).getD (base place) := by
  induction layers using List.reverseRecOn generalizing place with
  | nil => rfl
  | append_singleton layers layer ih =>
      have hlayers : Clear base layers := fun other hother =>
        h other (List.mem_append_left _ hother)
      have hlayer : Clear base [layer] := fun other hother =>
        h other (List.mem_append_right _ hother)
      rw [stack, List.foldl_append, said_concat]
      exact stack_congr_onTop hlayer (ih hlayers)

/-- Sayings that agree on a place do so under another layer. -/
theorem onTop_congr {said said' : List κ → Option (Option V)} (h : said place = said' place) :
    layer.onTop said place = layer.onTop said' place := by
  rw [Layer.onTop, Layer.onTop, h]

theorem foldl_onTop_congr {said said' : List κ → Option (Option V)} (h : said place = said' place) :
    later.foldl (fun said layer => layer.onTop said) said place =
      later.foldl (fun said layer => layer.onTop said) said' place := by
  induction later generalizing said said' with
  | nil => exact h
  | cons layer later ih => exact ih (onTop_congr h)

/-- What is under a layer is not seen below it, whatever is on top. -/
theorem foldl_onTop_below {said said' : List κ → Option (Option V)} (hmem : layer ∈ later)
    (h : layer.path <+: place) :
    later.foldl (fun said layer => layer.onTop said) said place =
      later.foldl (fun said layer => layer.onTop said) said' place := by
  induction later generalizing said said' with
  | nil => cases hmem
  | cons top later ih =>
      rcases List.mem_cons.mp hmem with rfl | hlater
      · rw [List.foldl_cons, List.foldl_cons]
        exact foldl_onTop_congr ((onTop_below said h).trans (onTop_below said' h).symm)
      · exact ih hlater

/-- Of layers that lie apart, the one that a place is below says what is there. -/
theorem said_of_mem (hmem : layer ∈ layers) (hbelow : layer.path <+: place)
    (honly : ∀ other ∈ layers, layer.path <+: other.path ∨ other.path <+: layer.path →
      other = layer) :
    said layers place = some (layer.reading (place.drop layer.path.length)) := by
  induction layers using List.reverseRecOn with
  | nil => cases hmem
  | append_singleton layers top ih =>
      have htop := honly top (List.mem_append_right _ List.mem_cons_self)
      rw [said_concat]
      by_cases hcovers : top.path <+: place
      · have hcases := List.prefix_or_prefix_of_prefix hbelow hcovers
        obtain rfl := htop hcases
        exact onTop_below _ hcovers
      · have hrest : layer ∈ layers := by
          rcases List.mem_append.mp hmem with hrest | hsame
          · exact hrest
          · obtain rfl := List.mem_singleton.mp hsame
            exact absurd hbelow hcovers
        have hsaid := ih hrest fun other hother => honly other (List.mem_append_left _ hother)
        have hnot : ¬(top.Full ∧ place <+: top.path) := by
          rintro ⟨-, habove⟩
          obtain rfl := htop (.inl (hbelow.trans habove))
          exact hcovers hbelow
        rw [Layer.onTop, if_neg hcovers, if_neg hnot, hsaid]

/-- Bases that agree on a place do so under layers. -/
theorem stack_congr {base' : List κ → Option V} (h : base place = base' place) :
    stack layers base place = stack layers base' place := by
  induction layers generalizing base base' with
  | nil => exact h
  | cons layer layers ih =>
      have hcovering : layer.covering base place = layer.covering base' place := by
        rw [Layer.covering, Layer.covering, h]
      exact ih hcovering

/-- Layers that lie below later ones say nothing. -/
theorem said_shadowed (h : ∀ layer ∈ first, ∃ other ∈ later, other.path <+: layer.path) :
    said (first ++ later) place = said later place := by
  rw [said_append]
  cases hsaid : said first place with
  | none => exact foldl_onTop_congr hsaid
  | some seen =>
      obtain ⟨layer, hlayer, hbelow⟩ := isSome_said.mp (hsaid ▸ rfl : (said first place).isSome)
      obtain ⟨other, hother, hbefore⟩ := h layer hlayer
      exact foldl_onTop_below hother (hbefore.trans hbelow)

/-- Of two paths to a place, one is on the way to the other. -/
theorem said_apart
    (h : ∀ layer ∈ first, ∀ other ∈ later, ¬layer.path <+: other.path ∧ ¬other.path <+: layer.path)
    (place : List κ) :
    said later place =
      if ∃ layer ∈ first, layer.path <+: place then none else said (first ++ later) place := by
  split
  · next hbelow =>
    obtain ⟨layer, hlayer, hbefore⟩ := hbelow
    rw [← Option.not_isSome_iff_eq_none, isSome_said]
    rintro ⟨other, hother, hbefore'⟩
    obtain ⟨hnot, hnot'⟩ := h layer hlayer other hother
    have hcases := List.prefix_or_prefix_of_prefix hbefore hbefore'
    exact hcases.elim hnot hnot'
  · next hnot =>
    rw [said_append]
    refine foldl_onTop_congr (Eq.symm ?_)
    rw [← Option.not_isSome_iff_eq_none, isSome_said]
    exact hnot

end Layers
