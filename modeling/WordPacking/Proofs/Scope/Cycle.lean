/-
# Reported cycles

A type is refused as cyclic when a reference is met whose name is already being expanded.  The
report then lists names from the first one of that name on the path to the repetition.  As the path
is a trail to the reference, these names lead around a cycle of the reference graph.
-/
import WordPacking.Proofs.Scope.Resolution
import WordPacking.Proofs.Scope.Visits

namespace WordPacking.Scope

open Definitions

variable {s : Scope}

/-- What resolving reports as a cycle is one, and the type leads to it. -/
lemma cycle_of_resolve {d : Decl} {names : List String}
    (h : s.resolve d = .error (.cyclic names)) : s.definitions.Cycle d names := by
  obtain ⟨v, hv, hdefect⟩ := exists_defect_of_resolve h (by simp)
  cases hdefect with
  | cyclic hname => exact (trail_of_steps hv).cycle hname

/-- **Cycle reports are exact.**  What is reported as a cycle is a cycle of the reference graph
that the type leads to.  A type that leads to a cycle is never resolved, no matter how deeply
types may be nested.  So a type that leads to no cycle, as often as it may share a definition, is
never reported as cyclic: what an inline struct or enum is called does not count as a
reference. -/
theorem resolve_cyclic_exact (s : Scope) (d : Decl) :
    (∀ names, s.resolve d = .error (.cyclic names) → s.definitions.Cycle d names) ∧
    ((∃ n, s.definitions.Reaches d n ∧ s.definitions.OnCycle n) →
      ∀ maxDepth schema, { s with maxDepth }.resolve d ≠ .ok schema) ∧
    ((∀ n, s.definitions.Reaches d n → ¬ s.definitions.OnCycle n) →
      ∀ names, s.resolve d ≠ .error (.cyclic names)) := by
  refine ⟨fun names => cycle_of_resolve, ?_, ?_⟩
  · rintro ⟨n, hreach, hcycle⟩ maxDepth schema h
    obtain ⟨t, ht, -⟩ := resolve_eq_ok_iff.mp h
    exact ht.expandable.acyclic n hreach hcycle
  · intro hacyclic names h
    obtain ⟨n, hreach, hcycle⟩ := (cycle_of_resolve h).exists_onCycle
    exact hacyclic n hreach hcycle

/-- An array without elements does not hide a cycle.  A definition that is shared is no cycle, also
where the type that shares it is called like it. -/
theorem node_cyclic_and_half_shared :
    let node : Decl := .struct "Node" .empty [⟨"next", .array 0 (Decl.named "Node"), .empty⟩]
    let half : Decl := .struct "Half" .empty [⟨"x", Decl.primitive "u8", .empty⟩]
    let shared : Decl := .struct "Half" .empty
      [⟨"left", Decl.named "Half", .empty⟩, ⟨"right", Decl.named "Half", .empty⟩]
    let ds : Definitions :=
      ⟨((∅ : Std.ExtTreeMap String Decl).insert "Node" node).insert "Half" half⟩
    let s : Scope := ⟨.standard, ds, 64⟩
    s.resolve (Decl.named "Node") = .error (.cyclic ["Node", "Node"]) ∧
      ds.Cycle (Decl.named "Node") ["Node", "Node"] ∧
      (∀ maxDepth schema, { s with maxDepth }.resolve (Decl.named "Node") ≠ .ok schema) ∧
      ∀ names, s.resolve shared ≠ .error (.cyclic names) := by
  intro node half shared ds s
  have hcyclic : s.resolve (Decl.named "Node") = .error (.cyclic ["Node", "Node"]) := by
    cbv
  obtain ⟨hreported, hnever, -⟩ := resolve_cyclic_exact s (Decl.named "Node")
  obtain ⟨-, -, hacyclic⟩ := resolve_cyclic_exact s shared
  have hcycle := hreported _ hcyclic
  refine ⟨hcyclic, hcycle, hnever hcycle.exists_onCycle, hacyclic fun n hreach => ?_⟩
  have hget : s.definitions.get? "Half" = some half := by simp [s, ds, get?]
  have hhalf : ∀ m, ¬ s.definitions.Reaches half m := by
    intro m
    simp [half, Decl.primitive]
  have hshared : n = "Half" := by
    simpa [shared, Decl.named, reaches_named_iff, hget, hhalf] using hreach
  subst hshared
  rw [onCycle_iff]
  rintro ⟨definition, hd, hback⟩
  obtain rfl := Option.some.inj (hget.symm.trans hd)
  exact hhalf _ hback

end WordPacking.Scope
