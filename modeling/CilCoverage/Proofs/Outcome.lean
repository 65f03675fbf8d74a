import Mathlib.Data.List.Forall2

/-!
# Outcomes of sequences

A sequence of steps succeeds if each of its steps does, and otherwise fails as the first failing
step does: `bind_eq_ok_iff` is about two steps, `mapM_eq_ok_iff` and `mapM_eq_error_iff` are about
one step for each item of a list.
-/

set_option autoImplicit false

namespace CilCoverage

/-- Two steps succeed if the second one does on what the first one gives. -/
theorem bind_eq_ok_iff {ε α β : Type} {program : Except ε α} {next : α → Except ε β} {y : β} :
    (program >>= next) = .ok y ↔ ∃ x, program = .ok x ∧ next x = .ok y := by
  cases program with
  | error cause =>
    constructor
    · nofun
    · rintro ⟨x, h, -⟩
      cases h
  | ok x =>
    constructor
    · intro h
      exact ⟨x, rfl, h⟩
    · rintro ⟨x', h, hnext⟩
      cases h
      exact hnext

/-- To convert the result leaves an error alone. -/
theorem bind_pure_eq_error_iff {ε α β : Type} {program : Except ε α} {f : α → β} {cause : ε} :
    (program >>= fun x => pure (f x)) = .error cause ↔ program = .error cause := by
  cases program with
  | error other => exact ⟨fun h => by cases h; rfl, fun h => by cases h; rfl⟩
  | ok x => exact ⟨nofun, nofun⟩

/-- A list is mapped to the results of its items. -/
theorem mapM_eq_ok_iff {ε α β : Type} {f : α → Except ε β} {items : List α} {results : List β} :
    items.mapM f = .ok results
      ↔ List.Forall₂ (fun item result => f item = .ok result) items results := by
  induction items generalizing results with
  | nil =>
    constructor
    · intro h
      cases h
      exact .nil
    · rintro ⟨⟩
      rfl
  | cons item rest ih =>
    rw [List.mapM_cons]
    cases hitem : f item with
    | error cause =>
      constructor
      · nofun
      · rintro (_ | ⟨h, -⟩)
        rw [hitem] at h
        cases h
    | ok value =>
      cases hrest : rest.mapM f with
      | error cause =>
        constructor
        · nofun
        · rintro (_ | ⟨-, h⟩)
          rw [ih.mpr h] at hrest
          cases hrest
      | ok values =>
        constructor
        · intro h
          cases h
          exact .cons hitem (ih.mp hrest)
        · rintro (_ | ⟨h, hvalues⟩)
          rw [ih.mpr hvalues] at hrest
          rw [hitem] at h
          cases hrest
          cases h
          rfl

/-- A list is mapped if all its items are. -/
theorem exists_mapM_eq_ok_iff {ε α β : Type} {f : α → Except ε β} {items : List α} :
    (∃ results, items.mapM f = .ok results) ↔ ∀ item ∈ items, ∃ result, f item = .ok result := by
  simp only [mapM_eq_ok_iff]
  induction items with
  | nil => exact ⟨fun _ => by simp, fun _ => ⟨[], .nil⟩⟩
  | cons item rest ih =>
    rw [List.forall_mem_cons, ← ih]
    constructor
    · rintro ⟨_, _ | ⟨hitem, hrest⟩⟩
      exact ⟨⟨_, hitem⟩, _, hrest⟩
    · rintro ⟨⟨_, hitem⟩, _, hrest⟩
      exact ⟨_, .cons hitem hrest⟩

/-- Otherwise the first item that fails gives the error. -/
theorem mapM_eq_error_iff {ε α β : Type} {f : α → Except ε β} {items : List α} {cause : ε} :
    items.mapM f = .error cause
      ↔ ∃ before item after, items = before ++ item :: after
          ∧ (∀ earlier ∈ before, ∃ result, f earlier = .ok result) ∧ f item = .error cause := by
  induction items with
  | nil =>
    constructor
    · nofun
    · rintro ⟨before, item, after, hsplit, -⟩
      exact absurd hsplit.symm (List.append_ne_nil_of_right_ne_nil before (List.cons_ne_nil _ _))
  | cons item rest ih =>
    rw [List.mapM_cons]
    cases hitem : f item with
    | error first =>
      constructor
      · rintro ⟨⟩
        exact ⟨[], item, rest, rfl, by simp, hitem⟩
      · rintro ⟨_ | ⟨earlier, before⟩, other, after, hsplit, hbefore, hcause⟩
        · obtain ⟨rfl, -⟩ := List.cons.inj hsplit
          rw [hitem] at hcause
          cases hcause
          rfl
        · obtain ⟨rfl, -⟩ := List.cons.inj hsplit
          obtain ⟨result, hresult⟩ := hbefore _ List.mem_cons_self
          rw [hitem] at hresult
          cases hresult
    | ok value =>
      refine bind_pure_eq_error_iff.trans (ih.trans ?_)
      constructor
      · rintro ⟨before, other, after, rfl, hbefore, hcause⟩
        exact ⟨item :: before, other, after, rfl,
          List.forall_mem_cons.mpr ⟨⟨value, hitem⟩, hbefore⟩, hcause⟩
      · rintro ⟨_ | ⟨earlier, before⟩, other, after, hsplit, hbefore, hcause⟩
        · obtain ⟨rfl, -⟩ := List.cons.inj hsplit
          rw [hitem] at hcause
          cases hcause
        · obtain ⟨-, rfl⟩ := List.cons.inj hsplit
          exact ⟨before, other, after, rfl, (List.forall_mem_cons.mp hbefore).2, hcause⟩

end CilCoverage
