/- Normal order on nameless terms: contraction of the leftmost outermost redex, step by step. -/
import NormalOrder.Proofs.Nameless.Basic
import NormalOrder.Reduction.Operator

namespace NormalOrder

/-- The result of an operator name that nothing binds, applied to two numbers. -/
def Operator.onNumbers? : Nameless → Nameless → Option (Except ReductionError Nameless)
  | .app (.free x) (.num left), .num right =>
    (Operator.ofName? x).map fun op => (op.apply left right).map (Term.nameless [])
  | _, _ => none

namespace Nameless

/-- Puts an argument for the variable of the binder `depth` binders out, which goes away. -/
def instantiate : (t : Nameless) → (depth : Nat) → (argument : Nameless) → Nameless
  | bound i, depth, argument =>
    if i < depth then bound i
    else if i = depth then argument.shift depth 0
    else bound (i - 1)
  | free x, _, _ => free x
  | lam b, depth, argument => lam (b.instantiate (depth + 1) argument)
  | app f a, depth, argument => app (f.instantiate depth argument) (a.instantiate depth argument)
  | num v, _, _ => num v

/-- What an application is contracted to, if it is a redex; a division by zero is one, and has
no result. -/
def contract? : Nameless → Nameless → Option (Except ReductionError Nameless)
  | lam b, a => some (.ok (b.instantiate 0 a))
  | f, a => Operator.onNumbers? f a

/-- The term after contraction of the leftmost outermost redex, if there is a redex. -/
def next : Nameless → Option (Except ReductionError Nameless)
  | lam b => b.next.map (Except.map lam)
  | app f a =>
    match contract? f a with
    | some r => some r
    | none =>
      match f.next with
      | some r => some (r.map fun f' => app f' a)
      | none => a.next.map (Except.map (app f))
  | _ => none

def leftmostRedex? : Nameless → Option Nameless
  | lam b => b.leftmostRedex?
  | app f a =>
    match contract? f a with
    | some _ => some (app f a)
    | none =>
      match f.leftmostRedex? with
      | some r => some r
      | none => a.leftmostRedex?
  | _ => none

def Normal : Nameless → Prop
  | lam b => b.Normal
  | app f a => contract? f a = none ∧ f.Normal ∧ a.Normal
  | _ => True

def isLam : Nameless → Bool
  | lam _ => true
  | _ => false

theorem eq_lam_of_isLam {t : Nameless} (h : t.isLam = true) : ∃ b, t = lam b := by
  cases t with
  | lam b => exact ⟨b, rfl⟩
  | bound i => cases h
  | free x => cases h
  | app f a => cases h
  | num v => cases h

theorem contract?_of_isLam {f a : Nameless} (h : f.isLam = false) :
    contract? f a = Operator.onNumbers? f a := by
  cases f with
  | lam b => cases h
  | bound i => rfl
  | free x => rfl
  | app f b => rfl
  | num v => rfl

theorem onNumbers?_eq_some {f a : Nameless} {r : Except ReductionError Nameless}
    (h : Operator.onNumbers? f a = some r) :
    ∃ x op left right, f = app (free x) (num left) ∧ a = num right ∧
      Operator.ofName? x = some op ∧ r = (op.apply left right).map (Term.nameless []) := by
  unfold Operator.onNumbers? at h
  split at h
  · rename_i x left right
    obtain ⟨op, hop, rfl⟩ := Option.map_eq_some_iff.mp h
    exact ⟨x, op, left, right, rfl, rfl, hop, rfl⟩
  · cases h

theorem contract?_eq_none_of_next_function {f a : Nameless} {r : Except ReductionError Nameless}
    (hf : f.isLam = false) (h : f.next = some r) : contract? f a = none := by
  rw [contract?_of_isLam hf]
  apply Option.eq_none_iff_forall_ne_some.mpr
  intro s hs
  obtain ⟨x, op, left, right, rfl, -, -, -⟩ := onNumbers?_eq_some hs
  cases h

theorem contract?_eq_none_of_next_argument {f a : Nameless} {r : Except ReductionError Nameless}
    (hf : f.isLam = false) (h : a.next = some r) : contract? f a = none := by
  rw [contract?_of_isLam hf]
  apply Option.eq_none_iff_forall_ne_some.mpr
  intro s hs
  obtain ⟨x, op, left, right, -, rfl, -, -⟩ := onNumbers?_eq_some hs
  cases h

theorem next_app_of_contract? {f a : Nameless} {r : Except ReductionError Nameless}
    (h : contract? f a = some r) : (app f a).next = some r := by
  simp only [next, h]

theorem next_app_of_function {f a : Nameless} {r : Except ReductionError Nameless}
    (hf : f.isLam = false) (h : f.next = some r) :
    (app f a).next = some (r.map fun f' => app f' a) := by
  simp only [next, contract?_eq_none_of_next_function hf h, h]

theorem next_app_of_argument {f a : Nameless} {r : Except ReductionError Nameless}
    (hf : f.isLam = false) (hn : f.next = none) (h : a.next = some r) :
    (app f a).next = some (r.map (app f)) := by
  simp only [next, contract?_eq_none_of_next_argument hf h, hn, h, Option.map_some]

/-- A term is normal if and only if normal order has nothing left to contract. -/
theorem next_eq_none_iff {t : Nameless} : t.next = none ↔ t.Normal := by
  induction t with
  | bound i => simp [next, Normal]
  | free x => simp [next, Normal]
  | lam b ih => simp [next, Normal, ih]
  | app f a hf ha =>
      rw [next, Normal, ← hf, ← ha]
      cases contract? f a with
      | some r => simp
      | none => cases f.next <;> simp
  | num v => simp [next, Normal]

theorem ofName?_eq_div {x : Name} (h : Operator.ofName? x = some .div) : x = "/" := by
  unfold Operator.ofName? at h
  split at h <;> first | rfl | cases h

theorem contract?_eq_error {f a : Nameless} {e : ReductionError}
    (h : contract? f a = some (.error e)) : e = .divisionByZero ∧ ∃ left right : Float,
      app f a = app (app (free "/") (num left)) (num right) ∧ (right == 0.0) = true := by
  cases hf : f.isLam with
  | true =>
      obtain ⟨b, rfl⟩ := eq_lam_of_isLam hf
      cases h
  | false =>
      rw [contract?_of_isLam hf] at h
      obtain ⟨x, op, left, right, rfl, rfl, hop, hr⟩ := onNumbers?_eq_some h
      cases op with
      | div =>
          obtain rfl := ofName?_eq_div hop
          cases hz : right == 0.0 with
          | true =>
              rw [Operator.apply, if_pos hz] at hr
              exact ⟨Except.error.inj hr, left, right, rfl, hz⟩
          | false =>
              rw [Operator.apply, if_neg (by simp [hz])] at hr
              cases hr
      | add => cases hr
      | sub => cases hr
      | mul => cases hr
      | eq => cases hr

theorem leftmostRedex?_eq_none {t : Nameless} (h : t.next = none) : t.leftmostRedex? = none := by
  induction t with
  | bound i => rfl
  | free x => rfl
  | lam b ih => exact ih (Option.map_eq_none_iff.mp h)
  | app f a hf ha =>
      rw [next] at h
      rw [leftmostRedex?]
      cases hc : contract? f a with
      | some r => simp [hc] at h
      | none =>
          cases hn : f.next with
          | some r => simp [hc, hn] at h
          | none =>
              simp only [hc, hn, Option.map_eq_none_iff] at h
              simp only [hf hn, ha h]
  | num v => rfl

/-- Normal order stops at a redex only where it is a number divided by zero. -/
theorem leftmostRedex?_of_next_error {t : Nameless} {e : ReductionError}
    (h : t.next = some (.error e)) : e = .divisionByZero ∧ ∃ left right : Float,
      t.leftmostRedex? = some (app (app (free "/") (num left)) (num right)) ∧
        (right == 0.0) = true := by
  induction t with
  | bound i => cases h
  | free x => cases h
  | lam b ih =>
      obtain ⟨r, hr, he⟩ := Option.map_eq_some_iff.mp h
      cases r with
      | ok u => cases he
      | error e' =>
          obtain rfl : e' = e := Except.error.inj he
          exact ih hr
  | app f a hf ha =>
      rw [next] at h
      rw [leftmostRedex?]
      cases hc : contract? f a with
      | some r =>
          simp only [hc, Option.some.injEq] at h
          obtain ⟨rfl, left, right, hredex, hz⟩ := contract?_eq_error (h ▸ hc)
          exact ⟨rfl, left, right, congrArg some hredex, hz⟩
      | none =>
          cases hn : f.next with
          | some r =>
              cases r with
              | ok u => simp [hc, hn, Except.map] at h
              | error e' =>
                  obtain rfl : e' = e := by simpa [hc, hn, Except.map] using h
                  obtain ⟨rfl, left, right, hredex, hz⟩ := hf hn
                  exact ⟨rfl, left, right, by simp only [hredex], hz⟩
          | none =>
              simp only [hc, hn, Option.map_eq_some_iff] at h
              obtain ⟨r, hr, he⟩ := h
              cases r with
              | ok u => cases he
              | error e' =>
                  obtain rfl : e' = e := Except.error.inj he
                  obtain ⟨rfl, left, right, hredex, hz⟩ := ha hr
                  exact ⟨rfl, left, right, by simp only [leftmostRedex?_eq_none hn, hredex], hz⟩
  | num v => cases h

end Nameless

end NormalOrder
