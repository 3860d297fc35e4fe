/- Where normal order comes to a normal form, the nameless reducer returns it, given enough room. -/
import NormalOrder.Proofs.Machine.Denote
import NormalOrder.Proofs.Nameless.Path

namespace NormalOrder.Machine

open Nameless (Reaches HeadReaches)

/-- The room that a reduction has left: recursion, nesting of head reductions, and contractions. -/
structure Leaves (limits : Limits) (fuel depth steps room contractions : Nat) : Prop where
  fuel : room ≤ fuel
  depth : depth + room ≤ limits.maxDepth
  steps : ∀ limit, limits.maxSteps = some limit → steps + contractions ≤ limit

/-- What a result of head reduction stands for. -/
def Head.Denotes (entered : Nat) (u : Nameless) : Head → Prop
  | .closure body home => home.Fits entered ∧ u = .lam (body.fill home.value entered 1)
  | .stuck v => v = u ∧ u.isLam = false

/-- Given enough room, head reduction of whatever stands for `t` returns what stands for `u`. -/
def HeadReturns (t : Nameless) (k : Nat) (u : Nameless) : Prop :=
  ∀ entered cells s, cells.Fits entered → cells.denote entered s = t →
    ∃ room r, r.Denotes entered u ∧ ∀ limits fuel depth steps,
      Leaves limits fuel depth steps room k →
        head limits fuel depth entered s cells steps = .ok r (steps + k)

/-- Given enough room, full reduction of whatever stands for `t` returns `v`. -/
def NormalReturns (t : Nameless) (k : Nat) (v : Nameless) : Prop :=
  ∀ entered cells s, cells.Fits entered → cells.denote entered s = t →
    ∃ room, ∀ limits fuel depth steps, Leaves limits fuel depth steps room k →
      normal limits fuel depth entered s cells steps = .ok v (steps + k)

theorem bind_of_ok {α β : Type} {x : Counting α} {f : α → Counting β} {a : α} {steps steps' : Nat}
    (h : x steps = .ok a steps') : (x >>= f) steps = f a steps' := by
  change EStateM.bind x f steps = f a steps'
  rw [EStateM.bind, h]

namespace Leaves

variable {limits : Limits} {fuel depth steps room k : Nat}

theorem exists_fuel (h : Leaves limits fuel depth steps (room + 1) k) : ∃ n, fuel = n + 1 := by
  have hfuel := h.fuel
  exact ⟨fuel - 1, by omega⟩

theorem not_deep (h : Leaves limits fuel depth steps (room + 1) k) :
    ¬ limits.maxDepth ≤ depth := by
  have hdepth := h.depth
  omega

theorem call {depth' i k' room' : Nat} (h : Leaves limits (fuel + 1) depth steps room k)
    (hdepth : depth' ≤ depth + 1) (hroom : room' < room) (hk : i + k' ≤ k) :
    Leaves limits fuel depth' (steps + i) room' k' := by
  have hfuel := h.fuel
  have hd := h.depth
  refine ⟨by omega, by omega, ?_⟩
  intro limit hl
  have hsteps := h.steps limit hl
  omega

theorem mono {room' k' : Nat} (h : Leaves limits fuel depth steps room k) (hroom : room' ≤ room)
    (hk : k' ≤ k) : Leaves limits fuel depth steps room' k' := by
  have hfuel := h.fuel
  have hd := h.depth
  refine ⟨by omega, by omega, ?_⟩
  intro limit hl
  have hsteps := h.steps limit hl
  omega

theorem countStep {i : Nat} (h : Leaves limits fuel depth steps room k) (hi : i < k) :
    countStep limits (steps + i) = .ok () (steps + i + 1) := by
  cases hm : limits.maxSteps with
  | none => exact countStep_of_none hm (steps + i)
  | some limit =>
      have hsteps := h.steps limit hm
      rw [countStep_of_some hm, if_neg (by omega)]

end Leaves

theorem HeadReturns.of_not_suspended {t u : Nameless} {k : Nat}
    (h : ∀ entered cells s, cells.Fits entered → cells.denote entered s = t →
      (∀ i, s = .bound i → cells.suspended? i = none) →
      ∃ room r, r.Denotes entered u ∧ ∀ limits fuel depth steps,
        Leaves limits fuel depth steps room k →
          head limits fuel depth entered s cells steps = .ok r (steps + k)) :
    HeadReturns t k u := by
  intro entered cells s hc ht
  -- A variable leads to cells that are part of its own, so the way home ends.
  induction hn : sizeOf cells using Nat.strongRecOn generalizing cells s with
  | _ n ih =>
      subst hn
      by_cases hs : ∀ i, s = .bound i → cells.suspended? i = none
      · exact h entered cells s hc ht hs
      · simp only [Classical.not_forall] at hs
        obtain ⟨i, rfl, hi⟩ := hs
        obtain ⟨⟨s', home⟩, hi⟩ := Option.ne_none_iff_exists'.mp hi
        rw [Cells.denote_bound, Cells.value_of_suspended hi] at ht
        obtain ⟨room, r, hr, hrun⟩ := ih _ (Cells.sizeOf_home_lt hi) home s' (hc.home hi) ht rfl
        refine ⟨room + 1, r, hr, ?_⟩
        intro limits fuel depth steps hl
        obtain ⟨fuel, rfl⟩ := hl.exists_fuel
        rw [head, if_neg hl.not_deep, hi]
        exact hrun limits fuel (depth + 1) steps
          (hl.call (Nat.le_refl _) (Nat.lt_succ_self room) (Nat.le_of_eq (Nat.zero_add k)))

theorem HeadReturns.of_atom {t : Nameless} (hl : t.isLam = false) (ha : ∀ f a, t ≠ .app f a) :
    HeadReturns t 0 t := by
  refine .of_not_suspended fun entered cells s hc ht hs => ⟨1, .stuck t, ⟨rfl, hl⟩, ?_⟩
  intro limits fuel depth steps hr
  obtain ⟨fuel, rfl⟩ := hr.exists_fuel
  have hd := hr.not_deep
  subst ht
  cases s with
  | bound i =>
      rw [head, if_neg hd, hs i rfl, Cells.denote_bound]
      rfl
  | free x =>
      rw [head, if_neg hd]
      rfl
  | lam b => cases hl
  | app f a => exact absurd rfl (ha _ _)
  | num v =>
      rw [head, if_neg hd]
      rfl

theorem HeadReturns.of_lam (b : Nameless) : HeadReturns (.lam b) 0 (.lam b) := by
  refine .of_not_suspended ?_
  intro entered cells s hc ht hs
  cases s with
  | lam s =>
      refine ⟨1, .closure s cells, ⟨hc, ht.symm⟩, ?_⟩
      intro limits fuel depth steps hr
      obtain ⟨fuel, rfl⟩ := hr.exists_fuel
      rw [head, if_neg hr.not_deep]
      rfl
  | bound i =>
      rw [Cells.denote_bound] at ht
      rcases Cells.value_of_not_suspended (hs i rfl) entered with ⟨j, hj⟩ | ⟨x, hx⟩
      · rw [hj] at ht; cases ht
      · rw [hx] at ht; cases ht
  | free x => cases ht
  | app f a => cases ht
  | num v => cases ht

theorem HeadReturns.of_app {f a u : Nameless} {k : Nat}
    (h : ∀ entered cells s s', cells.Fits entered → cells.denote entered s = f →
      cells.denote entered s' = a →
      ∃ room r, r.Denotes entered u ∧ ∀ limits fuel depth steps,
        Leaves limits fuel depth steps room k →
          head limits fuel depth entered (.app s s') cells steps = .ok r (steps + k)) :
    HeadReturns (.app f a) k u := by
  refine .of_not_suspended ?_
  intro entered cells s hc ht hs
  cases s with
  | app s s' =>
      obtain ⟨hf, ha⟩ := Nameless.app.inj ht
      exact h entered cells s s' hc hf ha
  | bound i =>
      rw [Cells.denote_bound] at ht
      rcases Cells.value_of_not_suspended (hs i rfl) entered with ⟨j, hj⟩ | ⟨x, hx⟩
      · rw [hj] at ht; cases ht
      · rw [hx] at ht; cases ht
  | free x => cases ht
  | lam b => cases ht
  | num v => cases ht

theorem HeadReturns.beta {f a b u : Nameless} {j m : Nat} (hf : HeadReturns f j (.lam b))
    (hb : HeadReturns (b.instantiate 0 a) m u) : HeadReturns (.app f a) (j + 1 + m) u := by
  refine .of_app ?_
  intro entered cells s s' hc hs hs'
  obtain ⟨room, r, hr, hrun⟩ := hf entered cells s hc hs
  cases r with
  | stuck v =>
      obtain ⟨rfl, hl⟩ := hr
      cases hl
  | closure body home =>
      obtain ⟨hhome, hbody⟩ := hr
      obtain rfl := Nameless.lam.inj hbody
      obtain ⟨room', r', hr', hrun'⟩ := hb entered (.thunk s' cells home) body ⟨hc, hhome⟩
        (by rw [Cells.denote_thunk hhome hc, hs'])
      refine ⟨room + room' + 1, r', hr', ?_⟩
      intro limits fuel depth steps hl
      obtain ⟨fuel, rfl⟩ := hl.exists_fuel
      have hcall := hrun limits fuel (depth + 1) steps
        (hl.call (i := 0) (Nat.le_refl _) (by omega) (by omega))
      have hcall' := hrun' limits fuel (depth + 1) (steps + (j + 1))
        (hl.call (Nat.le_refl _) (by omega) (by omega))
      rw [head, if_neg hl.not_deep, bind_of_ok hcall]
      refine (bind_of_ok (hl.countStep (by omega))).trans (hcall'.trans ?_)
      rw [Nat.add_assoc]

theorem head_of_stuck {f a g v : Nameless} {i m : Nat} (hf : HeadReturns f i g)
    (hgl : g.isLam = false) (ha : NormalReturns a m v) {entered : Nat} {cells : Cells}
    {s s' : Nameless} (hc : cells.Fits entered) (hs : cells.denote entered s = f)
    (hs' : cells.denote entered s' = a) :
    ∃ room, ∀ limits fuel depth steps, Leaves limits (fuel + 1) depth steps (room + 1) (i + m) →
      head limits (fuel + 1) depth entered (.app s s') cells steps =
        (do
          match ← operate limits g v with
          | some result => head limits fuel (depth + 1) entered result .nil
          | none => return .stuck (.app g v) : Counting Head) (steps + i + m) := by
  obtain ⟨room, r, hr, hrun⟩ := hf entered cells s hc hs
  obtain ⟨room', hrun'⟩ := ha entered cells s' hc hs'
  cases r with
  | closure body home =>
      obtain ⟨-, rfl⟩ := hr
      cases hgl
  | stuck g' =>
      obtain ⟨rfl, -⟩ := hr
      refine ⟨room + room', ?_⟩
      intro limits fuel depth steps hl
      have hcall := hrun limits fuel (depth + 1) steps
        (hl.call (i := 0) (Nat.le_refl _) (by omega) (by omega))
      have hcall' := hrun' limits fuel (depth + 1) (steps + i)
        (hl.call (Nat.le_refl _) (by omega) (Nat.le_refl _))
      rw [head, if_neg hl.not_deep, bind_of_ok hcall]
      exact bind_of_ok hcall'

theorem HeadReturns.stuck {f a g v : Nameless} {i m : Nat} (hf : HeadReturns f i g)
    (hgl : g.isLam = false) (ha : NormalReturns a m v) (hn : Nameless.contract? g v = none) :
    HeadReturns (.app f a) (i + m) (.app g v) := by
  refine .of_app ?_
  intro entered cells s s' hc hs hs'
  obtain ⟨room, hrun⟩ := head_of_stuck hf hgl ha hc hs hs'
  refine ⟨room + 1, .stuck (.app g v), ⟨rfl, rfl⟩, ?_⟩
  intro limits fuel depth steps hl
  obtain ⟨fuel, rfl⟩ := hl.exists_fuel
  rw [hrun limits fuel depth steps hl, operate, ← Nameless.contract?_of_isLam hgl, hn,
    ← Nat.add_assoc]
  rfl

theorem HeadReturns.operator {f a g v r u : Nameless} {i m n : Nat} (hf : HeadReturns f i g)
    (hgl : g.isLam = false) (ha : NormalReturns a m v)
    (hr : Nameless.contract? g v = some (.ok r)) (hu : HeadReturns r n u) :
    HeadReturns (.app f a) (i + m + (n + 1)) u := by
  refine .of_app ?_
  intro entered cells s s' hc hs hs'
  obtain ⟨room, hrun⟩ := head_of_stuck hf hgl ha hc hs hs'
  rw [Nameless.contract?_of_isLam hgl] at hr
  obtain ⟨room', r', hr', hrun'⟩ := hu entered .nil r trivial (Cells.denote_nil_of_onNumbers? hr)
  refine ⟨room + room' + 1, r', hr', ?_⟩
  intro limits fuel depth steps hl
  obtain ⟨fuel, rfl⟩ := hl.exists_fuel
  have hless : Leaves limits (fuel + 1) depth steps (room + 1) (i + m) :=
    hl.mono (by omega) (by omega)
  have hop : operate limits g v (steps + (i + m)) = .ok (some r) (steps + (i + m) + 1) := by
    simp only [operate, hr]
    exact bind_of_ok (hl.countStep (by omega))
  have hcall' := hrun' limits fuel (depth + 1) (steps + (i + m + 1))
    (hl.call (Nat.le_refl _) (by omega) (by omega))
  rw [hrun limits fuel depth steps hless, Nat.add_assoc steps i m]
  refine (bind_of_ok hop).trans (hcall'.trans ?_)
  congr 1
  omega

theorem NormalReturns.of_stuck {t u : Nameless} {k : Nat} (h : HeadReturns t k u)
    (hl : u.isLam = false) : NormalReturns t k u := by
  intro entered cells s hc hs
  obtain ⟨room, r, hr, hrun⟩ := h entered cells s hc hs
  cases r with
  | closure body home =>
      obtain ⟨-, rfl⟩ := hr
      cases hl
  | stuck v =>
      obtain ⟨rfl, -⟩ := hr
      refine ⟨room + 1, ?_⟩
      intro limits fuel depth steps hl
      obtain ⟨fuel, rfl⟩ := hl.exists_fuel
      rw [normal]
      exact bind_of_ok (hrun limits fuel depth steps
        (hl.call (i := 0) (Nat.le_succ _) (Nat.lt_succ_self room) (by omega)))

theorem NormalReturns.of_lam {t b v : Nameless} {j m : Nat} (h : HeadReturns t j (.lam b))
    (hb : NormalReturns b m v) : NormalReturns t (j + m) (.lam v) := by
  intro entered cells s hc hs
  obtain ⟨room, r, hr, hrun⟩ := h entered cells s hc hs
  cases r with
  | stuck u =>
      obtain ⟨rfl, hl⟩ := hr
      cases hl
  | closure body home =>
      obtain ⟨hhome, hbody⟩ := hr
      obtain rfl := Nameless.lam.inj hbody
      obtain ⟨room', hrun'⟩ := hb (entered + 1) (.atom (.binder entered) home) body
        ⟨Nat.lt_succ_self entered, hhome.mono (Nat.le_succ entered)⟩
        (Cells.denote_atom_binder home body)
      refine ⟨room + room' + 1, ?_⟩
      intro limits fuel depth steps hl
      obtain ⟨fuel, rfl⟩ := hl.exists_fuel
      have hcall := hrun limits fuel depth steps
        (hl.call (i := 0) (Nat.le_succ _) (by omega) (by omega))
      have hcall' := hrun' limits fuel depth (steps + j)
        (hl.call (Nat.le_succ _) (by omega) (Nat.le_refl _))
      rw [normal, bind_of_ok hcall, ← Nat.add_assoc]
      exact bind_of_ok hcall'

/-- Runs of normal order of this length, from this term, are matched by the reducer. -/
structure Matched (k : Nat) (t : Nameless) : Prop where
  head : ∀ u, HeadReaches k t u → (u.isLam = true ∨ u.Normal) → HeadReturns t k u
  normal : ∀ v, Reaches k t v → v.Normal → NormalReturns t k v

theorem NormalReturns.of_reaches {t v : Nameless} {k : Nat} (h : Reaches k t v) (hv : v.Normal)
    (hhead : ∀ j ≤ k, ∀ u, HeadReaches j t u → (u.isLam = true ∨ u.Normal) → HeadReturns t j u)
    (hbody : ∀ j m b, j + m = k → HeadReaches j t (.lam b) → Matched m b) :
    NormalReturns t k v := by
  obtain ⟨j, m, u, rfl, hj, hu, hm⟩ := h.split_head hv
  have hreturns := hhead j (Nat.le_add_right j m) u hj hu
  cases hl : u.isLam with
  | true =>
      obtain ⟨b, rfl⟩ := Nameless.eq_lam_of_isLam hl
      obtain ⟨w, rfl, hw⟩ := hm.of_lam
      exact .of_lam hreturns ((hbody j m b rfl hj).normal w hw hv)
  | false =>
      have hn : u.Normal := hu.resolve_left (by simp [hl])
      obtain ⟨rfl, rfl⟩ := hm.eq_of_next_eq_none (Nameless.next_eq_none_iff.mpr hn)
      exact .of_stuck hreturns hl

theorem HeadReturns.of_reaches_app {f a u : Nameless} {k : Nat}
    (hless : ∀ j < k, ∀ t, Matched j t) (hf : Matched k f) (ha : Matched k a)
    (h : HeadReaches k (.app f a) u) (hu : u.isLam = true ∨ u.Normal) :
    HeadReturns (.app f a) k u := by
  -- A part may need all contractions of the run; then it is matched as the smaller term.
  have hpart : ∀ t, Matched k t → ∀ j ≤ k, Matched j t := fun t ht j hj =>
    (Nat.lt_or_eq_of_le hj).elim (fun hlt => hless j hlt t) fun he => he ▸ ht
  cases h.of_app hu with
  | @beta j m b hk hj hm =>
      subst hk
      exact .beta ((hpart f hf j (by omega)).head _ hj (.inl rfl))
        ((hless m (by omega) _).head u hm hu)
  | @stuck i m g v hk hi hgl hg hm hv hc hu =>
      subst hk hu
      have hfun := (hpart f hf i (by omega)).head g hi (.inr hg)
      have harg := (hpart a ha m (by omega)).normal v hm hv
      exact .stuck hfun hgl harg hc
  | @operator i m n g v r hk hi hgl hg hm hv hc hn =>
      subst hk
      have hfun := (hpart f hf i (by omega)).head g hi (.inr hg)
      have harg := (hpart a ha m (by omega)).normal v hm hv
      exact .operator hfun hgl harg hc ((hless n (by omega) r).head u hn hu)

theorem Matched.of_head {k : Nat} {t : Nameless} (hless : ∀ j < k, ∀ t, Matched j t)
    (hhead : ∀ u, HeadReaches k t u → (u.isLam = true ∨ u.Normal) → HeadReturns t k u)
    (hbody : ∀ b, t = .lam b → Matched k b) : Matched k t := by
  refine ⟨hhead, fun v h hv => .of_reaches h hv (fun j hj u hu hshape => ?_) fun j m b hk hj => ?_⟩
  · rcases Nat.lt_or_eq_of_le hj with hlt | rfl
    · exact (hless j hlt t).head u hu hshape
    · exact hhead u hu hshape
  · cases hj with
    | refl _ =>
        rw [Nat.zero_add] at hk
        exact hk ▸ hbody b rfl
    | step _ _ _ => exact hless m (by omega) b

/-- Every run of normal order to a normal form is matched. The induction is on its length, and for
equal lengths on the term. -/
theorem matched (k : Nat) : ∀ t, Matched k t := by
  induction k using Nat.strongRecOn with
  | _ k hless =>
      intro t
      induction t with
      | bound i =>
          refine .of_head hless (fun u h _ => ?_) fun _ h => nomatch h
          obtain ⟨rfl, rfl⟩ := h.eq_of_next_eq_none rfl
          exact .of_atom rfl fun _ _ h => nomatch h
      | free x =>
          refine .of_head hless (fun u h _ => ?_) fun _ h => nomatch h
          obtain ⟨rfl, rfl⟩ := h.eq_of_next_eq_none rfl
          exact .of_atom rfl fun _ _ h => nomatch h
      | num v =>
          refine .of_head hless (fun u h _ => ?_) fun _ h => nomatch h
          obtain ⟨rfl, rfl⟩ := h.eq_of_next_eq_none rfl
          exact .of_atom rfl fun _ _ h => nomatch h
      | lam b ih =>
          refine .of_head hless (fun u h _ => ?_) fun _ h => Nameless.lam.inj h ▸ ih
          cases h with
          | refl _ => exact .of_lam b
          | step hl _ _ => cases hl
      | app f a hf ha =>
          refine .of_head hless (fun u => ?_) fun _ h => nomatch h
          exact HeadReturns.of_reaches_app hless hf ha

end NormalOrder.Machine
