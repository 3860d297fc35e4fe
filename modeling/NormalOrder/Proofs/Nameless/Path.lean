/- Runs of normal order: how they compose, and how a run of an application falls into runs of its
parts. -/
import NormalOrder.Proofs.Nameless.Leftmost

namespace NormalOrder.Nameless

/-- Normal order takes a term to another in so many contractions, each of a term of the given
kind. -/
inductive Path (kind : Nameless → Prop) : Nat → Nameless → Nameless → Prop
  | refl (t : Nameless) : Path kind 0 t t
  | step {k : Nat} {t u v : Nameless} :
      kind t → t.next = some (.ok u) → Path kind k u v → Path kind (k + 1) t v

abbrev Reaches : Nat → Nameless → Nameless → Prop :=
  Path fun _ => True

/-- As `Reaches`, where no term before the last is an abstraction. -/
abbrev HeadReaches : Nat → Nameless → Nameless → Prop :=
  Path fun t => t.isLam = false

variable {kind : Nameless → Prop} {j k : Nat} {t u v f g a b : Nameless}

theorem Path.trans (h : Path kind j t u) (h' : Path kind k u v) : Path kind (j + k) t v := by
  induction h with
  | refl t => rwa [Nat.zero_add]
  | step ht hn _ ih => exact Nat.succ_add _ _ ▸ .step ht hn (ih h')

theorem Path.single (ht : kind t) (hn : t.next = some (.ok u)) : Path kind 1 t u :=
  .step ht hn (.refl u)

theorem HeadReaches.reaches (h : HeadReaches k t u) : Reaches k t u := by
  induction h with
  | refl t => exact .refl t
  | step _ hn _ ih => exact .step trivial hn ih

theorem Path.eq_of_next_eq_none (h : Path kind k t u) (hn : t.next = none) : k = 0 ∧ u = t := by
  cases h with
  | refl t => exact ⟨rfl, rfl⟩
  | step _ hs _ => rw [hn] at hs; cases hs

theorem Reaches.under_lam (h : Reaches k t u) : Reaches k (.lam t) (.lam u) := by
  induction h with
  | refl t => exact .refl _
  | step _ hn _ ih => exact .step trivial (by rw [next, hn]; rfl) ih

theorem HeadReaches.app_function (h : HeadReaches k f g) (a : Nameless) :
    HeadReaches k (app f a) (app g a) := by
  induction h with
  | refl f => exact .refl _
  | step hf hn _ ih => exact .step rfl (by rw [next_app_of_function hf hn]; rfl) ih

/-- The argument is reduced once the function has a normal form that is no abstraction. -/
theorem Reaches.app_argument (h : Reaches k a b) (hf : f.isLam = false) (hn : f.Normal) :
    HeadReaches k (app f a) (app f b) := by
  induction h with
  | refl a => exact .refl _
  | step _ ha _ ih =>
      exact .step rfl (by rw [next_app_of_argument hf (next_eq_none_iff.mpr hn) ha]; rfl) ih

theorem Reaches.of_lam (h : Reaches k (.lam t) v) : ∃ u, v = .lam u ∧ Reaches k t u := by
  generalize hs : Nameless.lam t = s at h
  induction h generalizing t with
  | refl s => exact ⟨t, hs.symm, .refl t⟩
  | step _ hn _ ih =>
      subst hs
      obtain ⟨r, hr, he⟩ := Option.map_eq_some_iff.mp hn
      cases r with
      | error e => cases he
      | ok t' =>
          obtain ⟨u, hv, hu⟩ := ih (Except.ok.inj he)
          exact ⟨u, hv, .step trivial hr hu⟩

/-- A run to a normal form passes its first abstraction, if it has one, or ends before. -/
theorem Reaches.split_head (h : Reaches k t v) (hv : v.Normal) :
    ∃ j m u, k = j + m ∧ HeadReaches j t u ∧ (u.isLam = true ∨ u.Normal) ∧ Reaches m u v := by
  induction h with
  | refl t => exact ⟨0, 0, t, rfl, .refl t, .inr hv, .refl t⟩
  | @step k t t' v _ hn hrest ih =>
      cases ht : t.isLam with
      | true => exact ⟨0, k + 1, t, (Nat.zero_add _).symm, .refl t, .inl ht, .step trivial hn hrest⟩
      | false =>
          obtain ⟨j, m, u, rfl, hu, hshape, hm⟩ := ih hv
          exact ⟨j + 1, m, u, Nat.add_right_comm .., .step ht hn hu, hshape, hm⟩

/-- How a head reduction of an application goes. -/
inductive AppRun (f a u : Nameless) (k : Nat) : Prop
  | beta {j m : Nat} {b : Nameless} : k = j + 1 + m → HeadReaches j f (lam b) →
      HeadReaches m (b.instantiate 0 a) u → AppRun f a u k
  | stuck {i m : Nat} {g v : Nameless} : k = i + m → HeadReaches i f g → g.isLam = false →
      g.Normal → Reaches m a v → v.Normal → contract? g v = none → u = app g v → AppRun f a u k
  | operator {i m n : Nat} {g v r : Nameless} : k = i + m + (n + 1) → HeadReaches i f g →
      g.isLam = false → g.Normal → Reaches m a v → v.Normal → contract? g v = some (.ok r) →
      HeadReaches n r u → AppRun f a u k

theorem AppRun.of_function {f' : Nameless} (hl : f.isLam = false) (hn : f.next = some (.ok f'))
    (h : AppRun f' a u k) : AppRun f a u (k + 1) := by
  cases h with
  | beta hk hf hb => exact .beta (by omega) (.step hl hn hf) hb
  | stuck hk hf hgl hg ha hv hc hu => exact .stuck (by omega) (.step hl hn hf) hgl hg ha hv hc hu
  | operator hk hf hgl hg ha hv hc hr =>
      exact .operator (by omega) (.step hl hn hf) hgl hg ha hv hc hr

theorem AppRun.of_argument {a' : Nameless} (hl : f.isLam = false) (hn : f.next = none)
    (hn' : a.next = some (.ok a')) (h : AppRun f a' u k) : AppRun f a u (k + 1) := by
  cases h with
  | beta hk hf hb =>
      obtain ⟨-, rfl⟩ := hf.eq_of_next_eq_none hn
      cases hl
  | stuck hk hf hgl hg ha hv hc hu =>
      exact .stuck (by omega) hf hgl hg (.step trivial hn' ha) hv hc hu
  | operator hk hf hgl hg ha hv hc hr =>
      exact .operator (by omega) hf hgl hg (.step trivial hn' ha) hv hc hr

theorem AppRun.of_contract? {r : Nameless} (hl : f.isLam = false)
    (hc : contract? f a = some (.ok r)) (h : HeadReaches k r u) : AppRun f a u (k + 1) := by
  have hop := hc
  rw [contract?_of_isLam hl] at hop
  obtain ⟨x, op, left, right, rfl, rfl, -, -⟩ := onNumbers?_eq_some hop
  have hf : (app (free x) (num left)).Normal := ⟨rfl, trivial, trivial⟩
  have ha : (num right).Normal := trivial
  exact .operator (by omega) (.refl _) hl hf (.refl _) ha hc h

theorem AppRun.of_normal (h : (app f a).Normal) : AppRun f a (app f a) 0 := by
  obtain ⟨hc, hf, ha⟩ := h
  cases hl : f.isLam with
  | false => exact .stuck rfl (.refl f) hl hf (.refl a) ha hc rfl
  | true =>
      obtain ⟨b, rfl⟩ := eq_lam_of_isLam hl
      cases hc

/-- A head reduction of an application reduces the function, then the argument, as far as
needed. -/
theorem HeadReaches.of_app (h : HeadReaches k (app f a) u) (hu : u.isLam = true ∨ u.Normal) :
    AppRun f a u k := by
  generalize hs : app f a = s at h
  induction h generalizing f a with
  | refl s =>
      subst hs
      rcases hu with hu | hu
      · cases hu
      · exact .of_normal hu
  | @step k s s' u hnl hn hrest ih =>
      subst hs
      rw [next] at hn
      cases hfl : f.isLam with
      | true =>
          obtain ⟨b, rfl⟩ := eq_lam_of_isLam hfl
          obtain rfl : b.instantiate 0 a = s' := by simpa [contract?] using hn
          exact .beta (by omega) (.refl (lam b)) hrest
      | false =>
          cases hc : contract? f a with
          | some r =>
              obtain rfl : r = .ok s' := by simpa [hc] using hn
              exact .of_contract? hfl hc hrest
          | none =>
              cases hf : f.next with
              | some r =>
                  obtain ⟨f', rfl, rfl⟩ : ∃ f', r = .ok f' ∧ app f' a = s' := by
                    cases r with
                    | error e => simp [hc, hf, Except.map] at hn
                    | ok f' => exact ⟨f', rfl, by simpa [hc, hf, Except.map] using hn⟩
                  exact .of_function hfl hf (ih hu rfl)
              | none =>
                  obtain ⟨a', ha, rfl⟩ : ∃ a', a.next = some (.ok a') ∧ app f a' = s' := by
                    simp only [hc, hf, Option.map_eq_some_iff] at hn
                    obtain ⟨r, hr, he⟩ := hn
                    cases r with
                    | error e => cases he
                    | ok a' => exact ⟨a', hr, Except.ok.inj he⟩
                  exact .of_argument hfl hf ha (ih hu rfl)

end NormalOrder.Nameless
