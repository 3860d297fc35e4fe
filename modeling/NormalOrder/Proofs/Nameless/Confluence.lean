/- Reduction in any order: contracting redexes here or there first makes no difference in the end.

A parallel contraction takes any set of the redexes of a term at once. All parallel contractions of
a term lead on to its development, which takes every redex; so they can always be brought together
again, and a term has at most one normal form. -/
import Mathlib.Logic.Relation
import NormalOrder.Proofs.Nameless.Path

namespace NormalOrder.Nameless

open Relation (ReflTransGen)

section Substitution

variable (t : Nameless) {a b : Nameless}

/-- A second shift that starts within the first one adds to it. -/
theorem shift_shift {d e c k : Nat} (h : k ≤ d) :
    (t.shift d c).shift e (c + k) = t.shift (d + e) c := by
  induction t generalizing c with
  | bound i =>
      by_cases hi : i < c
      · rw [shift, shift, if_pos hi, if_pos hi, shift, if_pos (by omega)]
      · rw [shift, shift, if_neg hi, if_neg hi, shift, if_neg (by omega), Nat.add_assoc]
  | free x => rfl
  | lam b ih =>
      have hb := ih (c := c + 1)
      rw [Nat.add_right_comm] at hb
      exact congrArg lam hb
  | app f a hf ha => exact congrArg₂ app hf ha
  | num v => rfl

/-- Shifts that start at different places can be exchanged. -/
theorem shift_exchange (d e c k : Nat) :
    (t.shift d k).shift e (c + d + k) = (t.shift e (c + k)).shift d k := by
  induction t generalizing k with
  | bound i =>
      by_cases hk : i < k
      · rw [shift, if_pos hk, shift, if_pos (by omega), shift, if_pos (by omega), shift, if_pos hk]
      · by_cases hc : i < c + k
        · rw [shift, if_neg hk, shift, if_pos (by omega), shift, if_pos hc, shift, if_neg hk]
        · rw [shift, if_neg hk, shift, if_neg (by omega), shift, if_neg hc, shift,
            if_neg (by omega), Nat.add_right_comm]
  | free x => rfl
  | lam b ih => exact congrArg lam (ih (k + 1))
  | app f a hf ha => exact congrArg₂ app (hf k) (ha k)
  | num v => rfl

/-- Nothing is put for a variable that a shift has passed by. -/
theorem instantiate_shift {d j : Nat} (h : j ≤ d) (k : Nat) :
    (t.shift (d + 1) k).instantiate (k + j) a = t.shift d k := by
  induction t generalizing k with
  | bound i =>
      by_cases hk : i < k
      · rw [shift, shift, if_pos hk, if_pos hk, instantiate, if_pos (by omega)]
      · rw [shift, shift, if_neg hk, if_neg hk, instantiate, if_neg (by omega),
          if_neg (by omega)]
        rfl
  | free x => rfl
  | lam b ih =>
      have hb := ih (k + 1)
      rw [Nat.add_right_comm] at hb
      exact congrArg lam hb
  | app f a hf ha => exact congrArg₂ app (hf k) (ha k)
  | num v => rfl

/-- A shift above the place of an argument goes into the term and into the argument. -/
theorem shift_instantiate (d c j : Nat) :
    (t.instantiate j a).shift d (c + j) =
      (t.shift d (c + j + 1)).instantiate j (a.shift d c) := by
  induction t generalizing j with
  | bound i =>
      rcases Nat.lt_trichotomy i j with hi | rfl | hi
      · rw [instantiate, if_pos hi, shift, if_pos (by omega), shift, if_pos (by omega),
          instantiate, if_pos hi]
      · rw [instantiate, if_neg (Nat.lt_irrefl i), if_pos rfl, shift, if_pos (by omega),
          instantiate, if_neg (Nat.lt_irrefl i), if_pos rfl]
        exact a.shift_exchange i d c 0
      · rw [instantiate, if_neg (by omega), if_neg (by omega), shift, shift]
        by_cases hc : i < c + j + 1
        · rw [if_pos hc, if_pos (by omega), instantiate, if_neg (by omega), if_neg (by omega)]
        · rw [if_neg hc, if_neg (by omega), instantiate, if_neg (by omega), if_neg (by omega)]
          congr 1
          omega
  | free x => rfl
  | lam b ih => exact congrArg lam (ih (j + 1))
  | app f a hf ha => exact congrArg₂ app (hf j) (ha j)
  | num v => rfl

/-- A shift below the place of an argument moves that place. -/
theorem instantiate_shift_below (j k c : Nat) :
    (t.shift j c).instantiate (k + j + c) b = (t.instantiate (k + c) b).shift j c := by
  induction t generalizing c with
  | bound i =>
      by_cases hc : i < c
      · rw [shift, if_pos hc, instantiate, if_pos (by omega), instantiate, if_pos (by omega),
          shift, if_pos hc]
      rw [shift, if_neg hc, instantiate, instantiate]
      rcases Nat.lt_trichotomy i (k + c) with hi | rfl | hi
      · rw [if_pos (by omega), if_pos hi, shift, if_neg hc]
      · have hshift := b.shift_shift (d := k + c) (e := j) (c := 0) (Nat.le_add_left c k)
        rw [Nat.zero_add] at hshift
        rw [if_neg (by omega), if_pos (by omega), if_neg (by omega), if_pos rfl, hshift]
        congr 1
        omega
      · rw [if_neg (by omega), if_neg (by omega), if_neg (by omega), if_neg (by omega), shift,
          if_neg (by omega)]
        congr 1
        omega
  | free x => rfl
  | lam b ih => exact congrArg lam (ih (c + 1))
  | app f a hf ha => exact congrArg₂ app (hf c) (ha c)
  | num v => rfl

/-- Two arguments can be put in either order. -/
theorem instantiate_instantiate (k j : Nat) :
    (t.instantiate j a).instantiate (k + j) b =
      (t.instantiate (k + j + 1) b).instantiate j (a.instantiate k b) := by
  induction t generalizing j with
  | bound i =>
      rcases Nat.lt_trichotomy i j with hi | rfl | hi
      · rw [instantiate, if_pos hi, instantiate, if_pos (by omega), instantiate,
          if_pos (by omega), instantiate, if_pos hi]
      · rw [instantiate, if_neg (Nat.lt_irrefl i), if_pos rfl, instantiate,
          if_pos (by omega), instantiate, if_neg (Nat.lt_irrefl i), if_pos rfl]
        exact a.instantiate_shift_below i k 0
      · rw [instantiate, if_neg (by omega), if_neg (by omega), instantiate, instantiate]
        rcases Nat.lt_trichotomy i (k + j + 1) with hk | rfl | hk
        · rw [if_pos (by omega), if_pos hk, instantiate, if_neg (by omega), if_neg (by omega)]
        · have hcancel := b.instantiate_shift (a := a.instantiate k b) (Nat.le_add_left j k) 0
          rw [Nat.zero_add] at hcancel
          rw [if_neg (by omega), if_pos (by omega), if_neg (by omega), if_pos rfl, hcancel]
        · rw [if_neg (by omega), if_neg (by omega), if_neg (by omega), if_neg (by omega),
            instantiate, if_neg (by omega), if_neg (by omega)]
  | free x => rfl
  | lam b ih => exact congrArg lam (ih (j + 1))
  | app f a hf ha => exact congrArg₂ app (hf j) (ha j)
  | num v => rfl

end Substitution

variable {t u v f g a b r : Nameless}

/-- What an operator gives is a number or a truth value. -/
theorem onNumbers?_result (h : Operator.onNumbers? f a = some (.ok r)) :
    (∃ v, r = num v) ∨ ∃ truth, r = (Term.truth truth).nameless [] := by
  obtain ⟨x, op, left, right, -, -, -, hr⟩ := onNumbers?_eq_some h
  cases op with
  | add => cases hr; exact .inl ⟨_, rfl⟩
  | sub => cases hr; exact .inl ⟨_, rfl⟩
  | mul => cases hr; exact .inl ⟨_, rfl⟩
  | div =>
      rw [Operator.apply] at hr
      split at hr <;> cases hr
      exact .inl ⟨_, rfl⟩
  | eq => cases hr; exact .inr ⟨_, rfl⟩

/-- An operator, its numbers and what it gives mention no variable. -/
theorem shift_of_onNumbers? (h : Operator.onNumbers? f a = some (.ok r)) (d c : Nat) :
    f.shift d c = f ∧ a.shift d c = a ∧ r.shift d c = r := by
  have hr : r.shift d c = r := by
    rcases onNumbers?_result h with ⟨v, rfl⟩ | ⟨truth, rfl⟩
    · rfl
    · cases truth <;> simp [Term.truth, Term.namelessWith, ofName, shift, List.idxOf?_cons]
  obtain ⟨x, op, left, right, rfl, rfl, -, -⟩ := onNumbers?_eq_some h
  exact ⟨rfl, rfl, hr⟩

theorem instantiate_of_onNumbers? (h : Operator.onNumbers? f a = some (.ok r)) (c : Nat)
    (b : Nameless) :
    f.instantiate c b = f ∧ a.instantiate c b = a ∧ r.instantiate c b = r := by
  have hr : r.instantiate c b = r := by
    rcases onNumbers?_result h with ⟨v, rfl⟩ | ⟨truth, rfl⟩
    · rfl
    · cases truth <;> simp [Term.truth, Term.namelessWith, ofName, instantiate, List.idxOf?_cons]
  obtain ⟨x, op, left, right, rfl, rfl, -, -⟩ := onNumbers?_eq_some h
  exact ⟨rfl, rfl, hr⟩

/-- Contraction of any set of the redexes of a term at once, the empty set included. -/
inductive Parallel : Nameless → Nameless → Prop
  | bound (i : Nat) : Parallel (bound i) (bound i)
  | free (x : Name) : Parallel (free x) (free x)
  | num (v : Float) : Parallel (num v) (num v)
  | lam {b b' : Nameless} : Parallel b b' → Parallel (lam b) (lam b')
  | app {f f' a a' : Nameless} : Parallel f f' → Parallel a a' → Parallel (app f a) (app f' a')
  | beta {b b' a a' : Nameless} :
      Parallel b b' → Parallel a a' → Parallel (app (lam b) a) (b'.instantiate 0 a')
  | operator {f a r : Nameless} :
      Operator.onNumbers? f a = some (.ok r) → Parallel (app f a) r

namespace Parallel

theorem refl (t : Nameless) : Parallel t t := by
  induction t with
  | bound i => exact .bound i
  | free x => exact .free x
  | lam b ih => exact .lam ih
  | app f a hf ha => exact .app hf ha
  | num v => exact .num v

theorem shift (h : Parallel t u) (d c : Nat) : Parallel (t.shift d c) (u.shift d c) := by
  induction h generalizing c with
  | bound i => exact .refl _
  | free x => exact .refl _
  | num v => exact .refl _
  | lam _ ih => exact .lam (ih (c + 1))
  | app _ _ ihf iha => exact .app (ihf c) (iha c)
  | @beta b b' a a' _ _ ihb iha =>
      rw [show (b'.instantiate 0 a').shift d c = _ from b'.shift_instantiate d c 0]
      exact .beta (ihb (c + 1)) (iha c)
  | @operator f a r h =>
      obtain ⟨hf, ha, hr⟩ := shift_of_onNumbers? h d c
      rw [Nameless.shift, hf, ha, hr]
      exact .operator h

theorem instantiate (h : Parallel t u) (ha : Parallel a b) (c : Nat) :
    Parallel (t.instantiate c a) (u.instantiate c b) := by
  induction h generalizing c with
  | bound i =>
      rcases Nat.lt_trichotomy i c with hi | rfl | hi
      · rw [Nameless.instantiate, Nameless.instantiate, if_pos hi, if_pos hi]
        exact .refl _
      · rw [Nameless.instantiate, Nameless.instantiate, if_neg (Nat.lt_irrefl i),
          if_neg (Nat.lt_irrefl i), if_pos rfl, if_pos rfl]
        exact ha.shift i 0
      · rw [Nameless.instantiate, Nameless.instantiate, if_neg (by omega), if_neg (by omega),
          if_neg (by omega), if_neg (by omega)]
        exact .refl _
  | free x => exact .refl _
  | num v => exact .refl _
  | lam _ ih => exact .lam (ih (c + 1))
  | app _ _ ihf iha => exact .app (ihf c) (iha c)
  | @beta b₀ b' a₀ a' _ _ ihb iha =>
      rw [show (b'.instantiate 0 a').instantiate c b = _ from b'.instantiate_instantiate c 0]
      exact .beta (ihb (c + 1)) (iha c)
  | @operator f a₀ r h =>
      obtain ⟨hf, ha₀, -⟩ := instantiate_of_onNumbers? h c a
      obtain ⟨-, -, hr⟩ := instantiate_of_onNumbers? h c b
      rw [Nameless.instantiate, hf, ha₀, hr]
      exact .operator h

/-- An operator and its numbers have nothing to contract by themselves. -/
theorem eq_of_onNumbers? {f' a' : Nameless} (h : Operator.onNumbers? f a = some (.ok r))
    (hf : Parallel f f') (ha : Parallel a a') : f' = f ∧ a' = a := by
  obtain ⟨x, op, left, right, rfl, rfl, -, -⟩ := onNumbers?_eq_some h
  cases ha
  cases hf with
  | app hx hl =>
      cases hx
      cases hl
      exact ⟨rfl, rfl⟩
  | operator h => cases h

theorem eq_of_normal (h : Parallel t u) (ht : t.Normal) : u = t := by
  induction h with
  | bound i => rfl
  | free x => rfl
  | num v => rfl
  | lam _ ih => exact congrArg Nameless.lam (ih ht)
  | app _ _ ihf iha => exact congrArg₂ Nameless.app (ihf ht.2.1) (iha ht.2.2)
  | beta _ _ _ _ => cases ht.1
  | @operator f a r h =>
      have hf : f.isLam = false := by
        obtain ⟨x, op, left, right, rfl, -, -, -⟩ := onNumbers?_eq_some h
        rfl
      cases h.symm.trans ((contract?_of_isLam hf).symm.trans ht.1)

/-- A contraction of the leftmost outermost redex is a parallel one. -/
theorem of_next (h : t.next = some (.ok u)) : Parallel t u := by
  induction t generalizing u with
  | bound i => cases h
  | free x => cases h
  | num v => cases h
  | lam b ih =>
      obtain ⟨r, hr, he⟩ := Option.map_eq_some_iff.mp h
      cases r with
      | error e => cases he
      | ok b' => exact Except.ok.inj he ▸ .lam (ih hr)
  | app f a hf ha =>
      rw [next] at h
      cases hc : contract? f a with
      | some r =>
          obtain rfl : r = .ok u := by simpa [hc] using h
          cases hl : f.isLam with
          | true =>
              obtain ⟨b, rfl⟩ := eq_lam_of_isLam hl
              cases hc
              exact .beta (.refl b) (.refl a)
          | false => exact .operator (contract?_of_isLam hl ▸ hc)
      | none =>
          cases hn : f.next with
          | some r =>
              cases r with
              | error e => simp [hc, hn, Except.map] at h
              | ok f' =>
                  obtain rfl : Nameless.app f' a = u := by simpa [hc, hn, Except.map] using h
                  exact .app (hf hn) (.refl a)
          | none =>
              simp only [hc, hn, Option.map_eq_some_iff] at h
              obtain ⟨r, hr, he⟩ := h
              cases r with
              | error e => cases he
              | ok a' => exact Except.ok.inj he ▸ .app (.refl f) (ha hr)

end Parallel

/-- The contraction of all redexes of a term at once. -/
def develop : Nameless → Nameless
  | lam b => lam b.develop
  | app (lam b) a => b.develop.instantiate 0 a.develop
  | app f a =>
    match Operator.onNumbers? f a with
    | some (.ok r) => r
    | _ => app f.develop a.develop
  | t => t

theorem develop_of_onNumbers? (h : Operator.onNumbers? f a = some (.ok r)) :
    (app f a).develop = r := by
  obtain ⟨x, op, left, right, rfl, rfl, -, -⟩ := onNumbers?_eq_some h
  simp only [develop, h]

theorem develop_app (hf : f.isLam = false)
    (h : ∀ r, Operator.onNumbers? f a ≠ some (.ok r)) :
    (app f a).develop = app f.develop a.develop := by
  cases f with
  | lam b => cases hf
  | bound i => rfl
  | free x => rfl
  | num v => rfl
  | app f b =>
      rw [develop]
      · split
        · rename_i r hr
          exact absurd hr (h r)
        · rfl
      · intro b hb
        cases hb

/-- However many redexes are contracted at once, contracting more of them leads to the
development. -/
theorem Parallel.triangle (h : Parallel t u) : Parallel u t.develop := by
  induction h with
  | bound i => exact .refl _
  | free x => exact .refl _
  | num v => exact .refl _
  | lam _ ih => exact .lam ih
  | beta _ _ ihb iha => exact ihb.instantiate iha 0
  | operator h => exact develop_of_onNumbers? h ▸ .refl _
  | @app f f' a a' hf ha ihf iha =>
      cases hl : f.isLam with
      | true =>
          obtain ⟨b, rfl⟩ := eq_lam_of_isLam hl
          cases hf with
          | lam hb =>
              cases ihf with
              | lam hd => exact .beta hd iha
      | false =>
          by_cases hop : ∃ r, Operator.onNumbers? f a = some (.ok r)
          · obtain ⟨r, hr⟩ := hop
            obtain ⟨rfl, rfl⟩ := eq_of_onNumbers? hr hf ha
            exact develop_of_onNumbers? hr ▸ .operator hr
          · rw [develop_app hl fun r hr => hop ⟨r, hr⟩]
            exact .app ihf iha

/-- Reduction in any order: parallel contractions one after the other. -/
abbrev Reduces : Nameless → Nameless → Prop :=
  ReflTransGen Parallel

/-- What a term is reduced to in different orders can be reduced to a common term. -/
theorem Reduces.confluent (hu : Reduces t u) (hv : Reduces t v) :
    Relation.Join Reduces u v := by
  apply Relation.church_rosser _ hu hv
  intro t u v hu hv
  exact ⟨t.develop, .single hu.triangle, .single hv.triangle⟩

theorem Reduces.eq_of_normal (h : Reduces t u) (ht : t.Normal) : u = t := by
  induction h with
  | refl => rfl
  | tail _ hs ih =>
      subst ih
      exact hs.eq_of_normal ht

/-- A term has at most one normal form. -/
theorem Reduces.normal_unique (hu : Reduces t u) (hv : Reduces t v) (hun : u.Normal)
    (hvn : v.Normal) : u = v := by
  obtain ⟨w, huw, hvw⟩ := hu.confluent hv
  rw [← huw.eq_of_normal hun, ← hvw.eq_of_normal hvn]

theorem Reaches.reduces {k : Nat} (h : Reaches k t u) : Reduces t u := by
  induction h with
  | refl t => exact .refl
  | step _ hn _ ih => exact .head (.of_next hn) ih

theorem Reduces.contraction (b a : Nameless) : Reduces (app (lam b) a) (b.instantiate 0 a) :=
  .single (.beta (.refl b) (.refl a))

/-- Reducing an argument reduces what it is put into. -/
theorem Reduces.instantiate_argument (h : Reduces a b) (t : Nameless) (c : Nat) :
    Reduces (t.instantiate c a) (t.instantiate c b) := by
  induction h with
  | refl => exact .refl
  | tail _ hs ih => exact ih.tail ((Parallel.refl t).instantiate hs c)

end NormalOrder.Nameless
