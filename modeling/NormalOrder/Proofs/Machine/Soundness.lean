/- What the nameless reducer returns is what normal order reaches, in as many contractions as it has
counted. -/
import NormalOrder.Proofs.Machine.Denote
import NormalOrder.Proofs.Nameless.Path

namespace NormalOrder.Machine

open Nameless (Reaches HeadReaches)

/-- What a result says, counted from `steps` on: what was returned after so many contractions, or
after how many a number was divided by zero. Of the other ways to halt it says nothing. -/
def Explained {α : Type} (returned : Nat → α → Prop) (divided : Nat → Prop) (steps : Nat) :
    EStateM.Result Halt Nat α → Prop
  | .ok a steps' => ∃ k, steps' = steps + k ∧ returned k a
  | .error (.error .divisionByZero) steps' => ∃ k, steps' = steps + k ∧ divided k
  | .error _ _ => True

def Explains {α : Type} (returned : Nat → α → Prop) (divided : Nat → Prop) (x : Counting α) :
    Prop :=
  ∀ steps, Explained returned divided steps (x steps)

section Explains

variable {α β : Type} {returned : Nat → α → Prop} {divided : Nat → Prop}

theorem Explained.add {k steps : Nat} {r : EStateM.Result Halt Nat α}
    (h : Explained (fun m a => returned (k + m) a) (fun m => divided (k + m)) (steps + k) r) :
    Explained returned divided steps r := by
  unfold Explained at h ⊢
  split at h
  · obtain ⟨m, rfl, ha⟩ := h
    exact ⟨k + m, Nat.add_assoc .., ha⟩
  · obtain ⟨m, rfl, hd⟩ := h
    exact ⟨k + m, Nat.add_assoc .., hd⟩
  · trivial

theorem Explains.pure {a : α} (h : returned 0 a) :
    Explains returned divided (Pure.pure a : Counting α) :=
  fun _ => ⟨0, rfl, h⟩

theorem Explains.bind {x : Counting α} {f : α → Counting β} {after : Nat → β → Prop}
    (hx : Explains returned divided x)
    (hf : ∀ k a, returned k a →
      Explains (fun m b => after (k + m) b) (fun m => divided (k + m)) (f a)) :
    Explains after divided (x >>= f) := by
  intro steps
  have hx := hx steps
  change Explained after divided steps (EStateM.bind x f steps)
  rw [EStateM.bind]
  cases hr : x steps with
  | error halt steps' =>
      rw [hr] at hx
      cases halt with
      | error cause =>
          cases cause with
          | divisionByZero => exact hx
          | emptyName => trivial
          | stepLimit limit => trivial
          | depthLimit limit => trivial
      | suffixOverflow => trivial
      | outOfFuel => trivial
  | ok a steps' =>
      rw [hr] at hx
      obtain ⟨k, rfl, ha⟩ := hx
      exact (hf k a ha (steps + k)).add

theorem Explains.imp {x : Counting α} {returned' : Nat → α → Prop} {divided' : Nat → Prop}
    (h : Explains returned divided x) (hr : ∀ k a, returned k a → returned' k a)
    (hd : ∀ k, divided k → divided' k) : Explains returned' divided' x := by
  intro steps
  have h := h steps
  unfold Explained at h ⊢
  split at h
  · obtain ⟨k, hk, h⟩ := h
    exact ⟨k, hk, hr k _ h⟩
  · obtain ⟨k, hk, h⟩ := h
    exact ⟨k, hk, hd k h⟩
  · trivial

end Explains

theorem countStep_explains (limits : Limits) (divided : Nat → Prop) :
    Explains (fun k _ => k = 1) divided (countStep limits) := by
  intro steps
  cases h : limits.maxSteps with
  | none =>
      rw [countStep_of_none h]
      exact ⟨1, rfl, rfl⟩
  | some limit =>
      rw [countStep_of_some h]
      split
      · trivial
      · exact ⟨1, rfl, rfl⟩

theorem operate_explains (limits : Limits) (f a : Nameless) :
    Explains (fun k r => match r with
        | some u => k = 1 ∧ Operator.onNumbers? f a = some (.ok u)
        | none => k = 0 ∧ Operator.onNumbers? f a = none)
      (fun k => k = 0 ∧ ∃ e, Operator.onNumbers? f a = some (.error e)) (operate limits f a) := by
  rw [operate]
  cases h : Operator.onNumbers? f a with
  | none => exact .pure ⟨rfl, rfl⟩
  | some r =>
      cases r with
      | error e =>
          cases e with
          | divisionByZero => exact fun _ => ⟨0, rfl, rfl, _, rfl⟩
          | emptyName => exact fun _ => trivial
          | stepLimit limit => exact fun _ => trivial
          | depthLimit limit => exact fun _ => trivial
      | ok u =>
          refine .bind (countStep_explains limits _) ?_
          intro k _ hk
          subst hk
          exact .pure ⟨rfl, rfl⟩

/-- What normal order has reached when a head reduction returns. -/
def Head.ReachedFrom (t : Nameless) (entered k : Nat) : Head → Prop
  | .closure body home =>
    home.Fits entered ∧ HeadReaches k t (.lam (body.fill home.value entered 1))
  | .stuck u => u.isLam = false ∧ u.Normal ∧ HeadReaches k t u

/-- Normal order comes to a number divided by zero before it comes to an abstraction. -/
def HeadDivides (t : Nameless) (k : Nat) : Prop :=
  ∃ u, u.isLam = false ∧ u.next = some (.error .divisionByZero) ∧ HeadReaches k t u

def Divides (t : Nameless) (k : Nat) : Prop :=
  ∃ u, u.next = some (.error .divisionByZero) ∧ Reaches k t u

theorem Head.ReachedFrom.prepend {t u : Nameless} {entered j k : Nat} {r : Head}
    (h : HeadReaches j t u) (hr : r.ReachedFrom u entered k) : r.ReachedFrom t entered (j + k) := by
  cases r with
  | closure body home => exact ⟨hr.1, h.trans hr.2⟩
  | stuck v => exact ⟨hr.1, hr.2.1, h.trans hr.2.2⟩

theorem HeadDivides.prepend {t u : Nameless} {j k : Nat} (h : HeadReaches j t u)
    (hd : HeadDivides u k) : HeadDivides t (j + k) := by
  obtain ⟨v, hl, hn, hv⟩ := hd
  exact ⟨v, hl, hn, h.trans hv⟩

theorem HeadDivides.app_function {f : Nameless} {k : Nat} (h : HeadDivides f k) (a : Nameless) :
    HeadDivides (.app f a) k := by
  obtain ⟨u, hl, hn, hu⟩ := h
  exact ⟨.app u a, rfl, by rw [Nameless.next_app_of_function hl hn]; rfl, hu.app_function a⟩

theorem Divides.app_argument {f a : Nameless} {k : Nat} (h : Divides a k) (hl : f.isLam = false)
    (hn : f.Normal) : HeadDivides (.app f a) k := by
  obtain ⟨u, hu, hr⟩ := h
  refine ⟨.app f u, rfl, ?_, hr.app_argument hl hn⟩
  rw [Nameless.next_app_of_argument hl (Nameless.next_eq_none_iff.mpr hn) hu]
  rfl

/-- Head reductions with this fuel follow normal order. -/
def HeadExplained (limits : Limits) (fuel : Nat) : Prop :=
  ∀ depth entered t cells, cells.Fits entered →
    Explains (fun k r => r.ReachedFrom (cells.denote entered t) entered k)
      (HeadDivides (cells.denote entered t)) (head limits fuel depth entered t cells)

def NormalExplained (limits : Limits) (fuel : Nat) : Prop :=
  ∀ depth entered t cells, cells.Fits entered →
    Explains (fun k v => v.Normal ∧ Reaches k (cells.denote entered t) v)
      (Divides (cells.denote entered t)) (normal limits fuel depth entered t cells)

section Application

variable {limits : Limits} {fuel : Nat} {entered : Nat} {cells : Cells} {f a : Nameless}

theorem apply_explains (ih : HeadExplained limits fuel) (hc : cells.Fits entered) {j : Nat}
    {body : Nameless} {home : Cells}
    (hr : (Head.closure body home).ReachedFrom (cells.denote entered f) entered j) (depth : Nat) :
    Explains (fun k r => r.ReachedFrom (cells.denote entered (.app f a)) entered (j + k))
      (fun k => HeadDivides (cells.denote entered (.app f a)) (j + k))
      (do
        countStep limits
        head limits fuel depth entered body (.thunk a cells home)) := by
  obtain ⟨hhome, hf⟩ := hr
  have hbeta : HeadReaches (j + 1) (cells.denote entered (.app f a))
      ((Cells.thunk a cells home).denote entered body) := by
    rw [Cells.denote_thunk hhome hc]
    exact (hf.app_function _).trans (.single rfl (Nameless.next_app_of_contract? rfl))
  refine .bind (countStep_explains limits _) ?_
  intro k _ hk
  subst hk
  refine (ih depth entered body (.thunk a cells home) ⟨hc, hhome⟩).imp (fun m r hr => ?_)
    fun m hd => ?_
  · simpa only [Nat.add_assoc] using hr.prepend hbeta
  · simpa only [Nat.add_assoc] using hd.prepend hbeta

theorem stuck_explains (ihHead : HeadExplained limits fuel) (ihNormal : NormalExplained limits fuel)
    (hc : cells.Fits entered) {j : Nat} {g : Nameless}
    (hr : (Head.stuck g).ReachedFrom (cells.denote entered f) entered j) (depth : Nat) :
    Explains (fun k r => r.ReachedFrom (cells.denote entered (.app f a)) entered (j + k))
      (fun k => HeadDivides (cells.denote entered (.app f a)) (j + k))
      (do
        let v ← normal limits fuel depth entered a cells
        match ← operate limits g v with
        | some result => head limits fuel depth entered result .nil
        | none => return .stuck (.app g v)) := by
  obtain ⟨hgl, hg, hf⟩ := hr
  have hfun := hf.app_function (cells.denote entered a)
  refine .bind ((ihNormal depth entered a cells hc).imp (fun _ _ h => h)
    fun k hd => (hd.app_argument hgl hg).prepend hfun) fun m v hv => ?_
  obtain ⟨hv, ha⟩ := hv
  have happ : HeadReaches (j + m) (cells.denote entered (.app f a)) (.app g v) :=
    hfun.trans (ha.app_argument hgl hg)
  refine .bind ((operate_explains limits g v).imp (fun _ _ h => h) fun k hd => ?_)
    fun n r hr => ?_
  · -- The operator divides by zero, and the application is the leftmost redex.
    obtain ⟨rfl, e, he⟩ := hd
    rw [← Nameless.contract?_of_isLam hgl] at he
    obtain ⟨rfl, -⟩ := Nameless.contract?_eq_error he
    exact ⟨.app g v, rfl, Nameless.next_app_of_contract? he, happ⟩
  · cases r with
    | none =>
        obtain ⟨rfl, hn⟩ := hr
        rw [← Nameless.contract?_of_isLam hgl] at hn
        exact .pure ⟨rfl, ⟨hn, hg, hv⟩, happ⟩
    | some u =>
        obtain ⟨rfl, hu⟩ := hr
        have hop : HeadReaches (j + m + 1) (cells.denote entered (.app f a)) u := by
          rw [← Nameless.contract?_of_isLam hgl] at hu
          exact happ.trans (.single rfl (Nameless.next_app_of_contract? hu))
        -- The result has no indices, so it goes on without cells.
        have hnil := ihHead depth entered u .nil trivial
        rw [Cells.denote_nil_of_onNumbers? hu] at hnil
        refine hnil.imp (fun k r hr => ?_) fun k hd => ?_
        · simpa only [Nat.add_assoc] using hr.prepend hop
        · simpa only [Nat.add_assoc] using hd.prepend hop

end Application

theorem HeadExplained.succ {limits : Limits} {fuel : Nat} (ihHead : HeadExplained limits fuel)
    (ihNormal : NormalExplained limits fuel) : HeadExplained limits (fuel + 1) := by
  intro depth entered t cells hc
  by_cases hd : limits.maxDepth ≤ depth
  · rw [head_of_deep hd]
    exact fun _ => trivial
  cases t with
  | bound i =>
      rw [head, if_neg hd, Cells.denote_bound]
      cases hi : cells.suspended? i with
      | some s =>
          rw [Cells.value_of_suspended hi]
          exact ihHead (depth + 1) entered s.1 s.2 (hc.home hi)
      | none =>
          refine .pure ?_
          rcases Cells.value_of_not_suspended hi entered with ⟨j, hj⟩ | ⟨x, hx⟩
          · rw [hj]
            exact ⟨rfl, trivial, .refl _⟩
          · rw [hx]
            exact ⟨rfl, trivial, .refl _⟩
  | free x =>
      rw [head, if_neg hd]
      exact .pure ⟨rfl, trivial, .refl _⟩
  | num v =>
      rw [head, if_neg hd]
      exact .pure ⟨rfl, trivial, .refl _⟩
  | lam b =>
      rw [head, if_neg hd]
      exact .pure ⟨hc, .refl _⟩
  | app f a =>
      rw [head, if_neg hd]
      refine .bind ((ihHead (depth + 1) entered f cells hc).imp (fun _ _ h => h)
        fun k hd => hd.app_function (cells.denote entered a)) fun j r hr => ?_
      cases r with
      | closure body home => exact apply_explains ihHead hc hr (depth + 1)
      | stuck g => exact stuck_explains ihHead ihNormal hc hr (depth + 1)

theorem NormalExplained.succ {limits : Limits} {fuel : Nat} (ihHead : HeadExplained limits fuel)
    (ihNormal : NormalExplained limits fuel) : NormalExplained limits (fuel + 1) := by
  intro depth entered t cells hc
  rw [normal]
  refine .bind ((ihHead depth entered t cells hc).imp (fun _ _ h => h) fun k hd => ?_)
    fun j r hr => ?_
  · obtain ⟨u, -, hu, hr⟩ := hd
    exact ⟨u, hu, hr.reaches⟩
  · cases r with
    | closure body home =>
        obtain ⟨hhome, hf⟩ := hr
        have hbody := ihNormal depth (entered + 1) body (.atom (.binder entered) home)
          ⟨Nat.lt_succ_self entered, hhome.mono (Nat.le_succ entered)⟩
        rw [Cells.denote_atom_binder] at hbody
        refine .bind (hbody.imp (fun _ _ h => h) fun k hd => ?_) fun m v hv => ?_
        · obtain ⟨u, hu, hr⟩ := hd
          exact ⟨.lam u, by rw [Nameless.next, hu]; rfl, hf.reaches.trans hr.under_lam⟩
        · exact .pure ⟨hv.1, hf.reaches.trans hv.2.under_lam⟩
    | stuck u => exact .pure ⟨hr.2.1, hr.2.2.reaches⟩

/-- Head and full reduction follow normal order and count its contractions. -/
theorem reduction_explained (limits : Limits) (fuel : Nat) :
    HeadExplained limits fuel ∧ NormalExplained limits fuel := by
  induction fuel with
  | zero => exact ⟨fun _ _ _ _ _ _ => trivial, fun _ _ _ _ _ _ => trivial⟩
  | succ fuel ih => exact ⟨ih.1.succ ih.2, NormalExplained.succ ih.1 ih.2⟩

end NormalOrder.Machine
