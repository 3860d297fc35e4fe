/- The terms that are enumerated are all small terms over the given names, each listed once.

A level holds the variables and whatever can be made of the level below it, so a term is on every
level from its height on. -/
import Mathlib.Data.List.Nodup
import NormalOrder.Proofs.Grammar.RoundTrip
import NormalOrder.Proofs.Reduction.Names
import NormalOrder.Term.Enumerate

namespace NormalOrder.Term

variable {names : List Name} {level : Nat} {t : Term}

/-- The lowest level is made like the others, of an empty one. -/
theorem enumerate_succ (level : Nat) (names : List Name) :
    enumerate (level + 1) names =
      names.map var ++ names.flatMap (fun x => (enumerate level names).map (lam x)) ++
        (enumerate level names).flatMap (fun f => (enumerate level names).map (app f)) := by
  cases level with
  | zero => simp [enumerate]
  | succ level => rfl

theorem mem_enumerate_succ :
    t ∈ enumerate (level + 1) names ↔
      (∃ x ∈ names, t = var x) ∨
        (∃ x ∈ names, ∃ b ∈ enumerate level names, t = lam x b) ∨
        ∃ f ∈ enumerate level names, ∃ a ∈ enumerate level names, t = app f a := by
  rw [enumerate_succ]
  simp only [List.mem_append, List.mem_map, List.mem_flatMap, or_assoc, eq_comm]

/-- A level holds the terms up to its height that have no number and only the given names. -/
theorem mem_enumerate :
    t ∈ enumerate level names ↔
      t.numbers = 0 ∧ t.Named (· ∈ names) ∧ t.height ≤ level := by
  induction level generalizing t with
  | zero => cases t <;> simp [enumerate, height]
  | succ level ih =>
      rw [mem_enumerate_succ]
      cases t with
      | var x => simp [numbers, height]
      | num v => simp [numbers]
      | lam x b =>
          simp only [reduceCtorEq, and_false, exists_false, false_or, or_false, lam.injEq, ih,
            numbers, named_lam, height, Nat.add_le_add_iff_right]
          constructor
          · rintro ⟨_, hx, _, ⟨hnum, hb, hheight⟩, rfl, rfl⟩
            exact ⟨hnum, ⟨hx, hb⟩, hheight⟩
          · rintro ⟨hnum, ⟨hx, hb⟩, hheight⟩
            exact ⟨x, hx, b, ⟨hnum, hb, hheight⟩, rfl, rfl⟩
      | app f a =>
          simp only [reduceCtorEq, and_false, exists_false, false_or, app.injEq, ih, numbers,
            named_app, height, Nat.add_le_add_iff_right, Nat.add_eq_zero_iff, Nat.max_le]
          constructor
          · rintro ⟨_, ⟨hnumf, hf, hheightf⟩, _, ⟨hnuma, ha, hheighta⟩, rfl, rfl⟩
            exact ⟨⟨hnumf, hnuma⟩, ⟨hf, ha⟩, hheightf, hheighta⟩
          · rintro ⟨⟨hnumf, hnuma⟩, ⟨hf, ha⟩, hheightf, hheighta⟩
            exact ⟨f, ⟨hnumf, hf, hheightf⟩, a, ⟨hnuma, ha, hheighta⟩, rfl, rfl⟩

/-- What is made of two lists by a constructor has no repetition, if they have none. -/
theorem nodup_flatMap_map {α β : Type} {xs : List α} {ys : List β} (make : α → β → Term)
    (hmake : ∀ x y x' y', make x y = make x' y' → x = x' ∧ y = y') (hx : xs.Nodup)
    (hy : ys.Nodup) : (xs.flatMap fun x => ys.map (make x)).Nodup := by
  rw [List.nodup_flatMap]
  refine ⟨fun x _ => hy.map fun y y' h => (hmake x y x y' h).2, hx.imp ?_⟩
  intro x x' hne t ht ht'
  obtain ⟨y, -, rfl⟩ := List.mem_map.mp ht
  obtain ⟨y', -, h⟩ := List.mem_map.mp ht'
  exact hne (hmake x y x' y' h.symm).1

theorem nodup_enumerate (h : names.Nodup) : (enumerate level names).Nodup := by
  induction level with
  | zero => exact List.nodup_nil
  | succ level ih =>
      rw [enumerate_succ, List.append_assoc]
      have hvar : (names.map var).Nodup := h.map fun x y => var.inj
      have hlam := nodup_flatMap_map lam (fun _ _ _ _ => lam.inj) h ih
      have happ := nodup_flatMap_map app (fun _ _ _ _ => app.inj) ih ih
      -- The three parts begin with different constructors.
      refine hvar.append (hlam.append happ ?_) ?_
      · intro t hl ha
        obtain ⟨x, -, hl⟩ := List.mem_flatMap.mp hl
        obtain ⟨f, -, ha⟩ := List.mem_flatMap.mp ha
        obtain ⟨b, -, rfl⟩ := List.mem_map.mp hl
        obtain ⟨a, -, h⟩ := List.mem_map.mp ha
        cases h
      · intro t hv hmade
        obtain ⟨x, -, rfl⟩ := List.mem_map.mp hv
        rcases List.mem_append.mp hmade with hl | ha
        · obtain ⟨y, -, hl⟩ := List.mem_flatMap.mp hl
          obtain ⟨b, -, h⟩ := List.mem_map.mp hl
          cases h
        · obtain ⟨f, -, ha⟩ := List.mem_flatMap.mp ha
          obtain ⟨a, -, h⟩ := List.mem_map.mp ha
          cases h

/-- The terms without numbers over different names, up to a height, are enumerated without
repetition and without anything else among them. -/
theorem enumerate_lists_once (h : names.Nodup) (level : Nat) :
    (enumerate level names).Nodup ∧
      ∀ t, t ∈ enumerate level names ↔
        t.numbers = 0 ∧ t.Named (· ∈ names) ∧ t.height ≤ level :=
  ⟨nodup_enumerate h, fun _ => mem_enumerate⟩

/-- The two sides of the application have different heights. -/
theorem enumerate_lists_once_unbalanced :
    ["x", "y"].Nodup ∧ (enumerate 3 ["x", "y"]).Nodup ∧
      app (var "y") (lam "x" (var "y")) ∈ enumerate 3 ["x", "y"] ∧
      lam "x" (app (var "y") (lam "x" (var "y"))) ∉ enumerate 3 ["x", "y"] := by
  have hnames : ["x", "y"].Nodup := by decide
  obtain ⟨hnodup, hmem⟩ := enumerate_lists_once hnames 3
  refine ⟨hnames, hnodup, (hmem _).mpr ⟨rfl, ?_, by decide⟩, fun h => ?_⟩
  · intro x hx
    simpa [Term.names, Names.union, or_comm] using hx
  · exact absurd ((hmem _).mp h).2.2 (by decide)

end NormalOrder.Term
