/- What nameless terms stand for in cells: entering an abstraction, applying one, and following
a variable leave it. -/
import NormalOrder.Proofs.Machine.Basic

namespace NormalOrder.Machine

variable {entered : Nat}

theorem Atom.Fits.mono {a : Atom} (h : a.Fits entered) {more : Nat} (hle : entered ≤ more) :
    a.Fits more := by
  cases a with
  | binder earlier => exact Nat.lt_of_lt_of_le h hle
  | name x => trivial

theorem Cells.Fits.mono {cells : Cells} (h : cells.Fits entered) {more : Nat}
    (hle : entered ≤ more) : cells.Fits more := by
  induction cells with
  | nil => trivial
  | atom a outer ih => exact ⟨h.1.mono hle, ih h.2⟩
  | thunk t home outer ihHome ih => exact ⟨ihHome h.1, ih h.2⟩

theorem Atom.shift_term {a : Atom} (h : a.Fits entered) (d c : Nat) :
    (a.term (entered + c)).shift d c = a.term (entered + c + d) := by
  cases a with
  | binder earlier =>
      have h : earlier < entered := h
      rw [Atom.term, Atom.term, Nameless.shift, if_neg (by omega)]
      congr 1
      omega
  | name x => rfl

theorem Atom.instantiate_term {a : Atom} (h : a.Fits entered) (c : Nat) (t : Nameless) :
    (a.term (entered + c + 1)).instantiate c t = a.term (entered + c) := by
  cases a with
  | binder earlier =>
      have h : earlier < entered := h
      rw [Atom.term, Atom.term, Nameless.instantiate, if_neg (by omega), if_neg (by omega)]
      congr 1
      omega
  | name x => rfl

namespace Cells

theorem shift_fill {value : Nat → Nat → Nameless}
    (hv : ∀ d c i, (value (entered + c) i).shift d c = value (entered + c + d) i)
    (t : Nameless) (d c depth : Nat) :
    (t.fill value (entered + c) depth).shift d (c + depth) =
      t.fill value (entered + c + d) depth := by
  induction t generalizing depth with
  | bound i =>
      by_cases hi : i < depth
      · simp only [Nameless.fill, if_pos hi, Nameless.shift, if_pos (show i < c + depth by omega)]
      · have h := hv d (c + depth) (i - depth)
        simp only [Nameless.fill, if_neg hi]
        rw [Nat.add_assoc, h]
        congr 1
        omega
  | free x => rfl
  | lam b ih => exact congrArg Nameless.lam (ih (depth + 1))
  | app f a hf ha => exact congrArg₂ Nameless.app (hf depth) (ha depth)
  | num v => rfl

theorem instantiate_fill {value : Nat → Nat → Nameless} {a : Nameless}
    (hv : ∀ c i, (value (entered + c + 1) i).instantiate c a = value (entered + c) i)
    (t : Nameless) (c depth : Nat) :
    (t.fill value (entered + c + 1) depth).instantiate (c + depth) a =
      t.fill value (entered + c) depth := by
  induction t generalizing depth with
  | bound i =>
      by_cases hi : i < depth
      · simp only [Nameless.fill, if_pos hi, Nameless.instantiate,
          if_pos (show i < c + depth by omega)]
      · have h := hv (c + depth) (i - depth)
        simp only [Nameless.fill, if_neg hi]
        rw [show entered + c + 1 + depth = entered + (c + depth) + 1 by omega, h]
        congr 1
        omega
  | free x => rfl
  | lam b ih => exact congrArg Nameless.lam (ih (depth + 1))
  | app f a hf ha => exact congrArg₂ Nameless.app (hf depth) (ha depth)
  | num v => rfl

theorem shift_value {cells : Cells} (h : cells.Fits entered) (d c i : Nat) :
    (cells.value (entered + c) i).shift d c = cells.value (entered + c + d) i := by
  induction cells generalizing d c i with
  | nil =>
      rw [value, value, Nameless.shift, if_neg (by omega)]
      congr 1
      omega
  | atom a outer ih =>
      cases i with
      | zero => exact a.shift_term h.1 d c
      | succ i => exact ih h.2 d c i
  | thunk t home outer ihHome ih =>
      cases i with
      | zero => exact shift_fill (fun d c i => ihHome h.1 d c i) t d c 0
      | succ i => exact ih h.2 d c i

theorem instantiate_value {cells : Cells} (h : cells.Fits entered) (a : Nameless) (c i : Nat) :
    (cells.value (entered + c + 1) i).instantiate c a = cells.value (entered + c) i := by
  induction cells generalizing c i with
  | nil =>
      rw [value, value, Nameless.instantiate, if_neg (by omega), if_neg (by omega)]
      congr 1
      omega
  | atom b outer ih =>
      cases i with
      | zero => exact b.instantiate_term h.1 c a
      | succ i => exact ih h.2 c i
  | thunk t home outer ihHome ih =>
      cases i with
      | zero => exact instantiate_fill (fun c i => ihHome h.1 c i) t c 0
      | succ i => exact ih h.2 c i

theorem shift_denote {cells : Cells} (h : cells.Fits entered) (d : Nat) (t : Nameless) :
    (cells.denote entered t).shift d 0 = cells.denote (entered + d) t :=
  shift_fill (shift_value h) t d 0 0

/-- To enter an abstraction is to go below its binder. -/
theorem denote_atom_binder (cells : Cells) (b : Nameless) :
    (atom (.binder entered) cells).denote (entered + 1) b = b.fill cells.value entered 1 := by
  have h : ∀ depth, b.fill (atom (.binder entered) cells).value (entered + 1) depth =
      b.fill cells.value entered (depth + 1) := by
    induction b with
    | bound i =>
        intro depth
        rcases Nat.lt_trichotomy i depth with hi | rfl | hi
        · simp only [Nameless.fill, if_pos hi, if_pos (show i < depth + 1 by omega)]
        · simp only [Nameless.fill, if_neg (Nat.lt_irrefl i), Nat.sub_self, value, Atom.term,
            if_pos (Nat.lt_succ_self i)]
          congr 1
          omega
        · obtain ⟨n, rfl⟩ : ∃ n, i = depth + 1 + n := ⟨i - (depth + 1), by omega⟩
          simp only [Nameless.fill, if_neg (show ¬ depth + 1 + n < depth by omega),
            if_neg (show ¬ depth + 1 + n < depth + 1 by omega),
            show depth + 1 + n - depth = n + 1 by omega,
            show depth + 1 + n - (depth + 1) = n by omega, value]
          congr 1
          omega
    | free x => intro depth; rfl
    | lam b ih => intro depth; exact congrArg Nameless.lam (ih (depth + 1))
    | app f a hf ha => intro depth; exact congrArg₂ Nameless.app (hf depth) (ha depth)
    | num v => intro depth; rfl
  exact h 0

/-- To suspend an argument is to put it for the variable. -/
theorem denote_thunk {home : Cells} (h : home.Fits entered) {cells : Cells}
    (hc : cells.Fits entered) (a b : Nameless) :
    (thunk a cells home).denote entered b =
      (b.fill home.value entered 1).instantiate 0 (cells.denote entered a) := by
  have h : ∀ depth, b.fill (thunk a cells home).value entered depth =
      (b.fill home.value entered (depth + 1)).instantiate depth (cells.denote entered a) := by
    induction b with
    | bound i =>
        intro depth
        rcases Nat.lt_trichotomy i depth with hi | rfl | hi
        · simp only [Nameless.fill, if_pos hi, if_pos (show i < depth + 1 by omega),
            Nameless.instantiate]
        · simp only [Nameless.fill, if_neg (Nat.lt_irrefl i), Nat.sub_self,
            if_pos (Nat.lt_succ_self i), Nameless.instantiate, shift_denote hc]
          rfl
        · obtain ⟨n, rfl⟩ : ∃ n, i = depth + 1 + n := ⟨i - (depth + 1), by omega⟩
          simp only [Nameless.fill, if_neg (show ¬ depth + 1 + n < depth by omega),
            if_neg (show ¬ depth + 1 + n < depth + 1 by omega),
            show depth + 1 + n - depth = n + 1 by omega,
            show depth + 1 + n - (depth + 1) = n by omega]
          exact (instantiate_value h _ depth n).symm
    | free x => intro depth; rfl
    | lam b ih => intro depth; exact congrArg Nameless.lam (ih (depth + 1))
    | app f a hf ha => intro depth; exact congrArg₂ Nameless.app (hf depth) (ha depth)
    | num v => intro depth; rfl
  exact h 0

theorem denote_nil_of_onNumbers? {f a r : Nameless}
    (h : Operator.onNumbers? f a = some (.ok r)) : nil.denote entered r = r := by
  obtain ⟨x, op, left, right, -, -, -, hr⟩ := Nameless.onNumbers?_eq_some h
  have hb : ∀ b, nil.denote entered ((Term.truth b).nameless []) = (Term.truth b).nameless [] := by
    intro b
    cases b <;> rfl
  cases op with
  | add => cases hr; rfl
  | sub => cases hr; rfl
  | mul => cases hr; rfl
  | div =>
      rw [Operator.apply] at hr
      split at hr <;> cases hr
      rfl
  | eq => cases hr; exact hb _

theorem denote_bound (cells : Cells) (i : Nat) :
    cells.denote entered (.bound i) = cells.value entered i := by
  simp [denote, Nameless.fill]

theorem value_of_suspended {cells home : Cells} {i : Nat} {t : Nameless}
    (h : cells.suspended? i = some (t, home)) (entered : Nat) :
    cells.value entered i = home.denote entered t := by
  induction cells generalizing i with
  | nil => cases h
  | atom a outer ih =>
      cases i with
      | zero => cases h
      | succ i => exact ih h
  | thunk t home outer ihHome ih =>
      cases i with
      | zero => cases h; rfl
      | succ i => exact ih h

theorem Fits.home {cells home : Cells} (h : cells.Fits entered) {i : Nat} {t : Nameless}
    (hi : cells.suspended? i = some (t, home)) : home.Fits entered := by
  induction cells generalizing i with
  | nil => cases hi
  | atom a outer ih =>
      cases i with
      | zero => cases hi
      | succ i => exact ih h.2 hi
  | thunk t home outer ihHome ih =>
      cases i with
      | zero => cases hi; exact h.1
      | succ i => exact ih h.2 hi

theorem sizeOf_home_lt {cells home : Cells} {i : Nat} {t : Nameless}
    (h : cells.suspended? i = some (t, home)) : sizeOf home < sizeOf cells := by
  induction cells generalizing i with
  | nil => cases h
  | atom a outer ih =>
      cases i with
      | zero => cases h
      | succ i =>
          have := ih h
          simp only [atom.sizeOf_spec]
          omega
  | thunk t home outer ihHome ih =>
      cases i with
      | zero =>
          cases h
          simp only [thunk.sizeOf_spec]
          omega
      | succ i =>
          have := ih h
          simp only [thunk.sizeOf_spec]
          omega

theorem value_of_not_suspended {cells : Cells} {i : Nat} (h : cells.suspended? i = none)
    (entered : Nat) :
    (∃ j, cells.value entered i = .bound j) ∨ ∃ x, cells.value entered i = .free x := by
  induction cells generalizing i with
  | nil => exact .inl ⟨_, rfl⟩
  | atom a outer ih =>
      cases i with
      | zero =>
          cases a with
          | binder earlier => exact .inl ⟨_, rfl⟩
          | name x => exact .inr ⟨x, rfl⟩
      | succ i => exact ih h
  | thunk t home outer ihHome ih =>
      cases i with
      | zero => cases h
      | succ i => exact ih h

end Cells

theorem countStep_of_none {limits : Limits} (h : limits.maxSteps = none) (steps : Nat) :
    countStep limits steps = .ok () (steps + 1) := by
  simp only [countStep, h]
  rfl

theorem countStep_of_some {limits : Limits} {limit : Nat} (h : limits.maxSteps = some limit)
    (steps : Nat) : countStep limits steps =
      if limit < steps + 1 then .error (.error (.stepLimit limit)) (steps + 1)
      else .ok () (steps + 1) := by
  have hc : countStep limits steps = (if limit < steps + 1 then throw (.error (.stepLimit limit))
      else pure () : Counting Unit) (steps + 1) := by
    simp only [countStep, h]
    rfl
  rw [hc]
  split <;> rfl

theorem head_of_deep {limits : Limits} {depth : Nat} (h : limits.maxDepth ≤ depth)
    (fuel : Nat) (t : Nameless) (cells : Cells) :
    head limits (fuel + 1) depth entered t cells =
      throw (.error (.depthLimit limits.maxDepth)) := by
  unfold head
  exact if_pos h

end NormalOrder.Machine
