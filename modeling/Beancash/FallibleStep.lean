import Mathlib.Data.List.Basic
import Mathlib.Data.List.Induction

/-!
# Steps that may fail

A step on a state returns a value or fails, and leaves a state in both cases: what a failing step has
changed by then stays changed. `Keeps R` is for relations between the states before and after that hold
however it ends, `FailKeeps R` and `ReturnKeeps R` for one way of ending.
-/

namespace Fallible

def Step (σ α : Type) : Type := σ → Option α × σ

variable {σ α β : Type}

namespace Step

def run (x : Step σ α) (s : σ) : Option α × σ := x s

instance : Monad (Step σ) where
  pure a := fun s => (some a, s)
  bind x f := fun s =>
    match x s with
    | (some a, s') => f a s'
    | (none, s') => (none, s')

def fail : Step σ α := fun s => (none, s)

def guard (b : Bool) : Step σ Unit := fun s => (if b then some () else none, s)

def ofOption (o : Option α) : Step σ α := fun s => (o, s)

/-- A value read from the state. -/
def read (f : σ → α) : Step σ α := fun s => (some (f s), s)

def modify (f : σ → σ) : Step σ Unit := fun s => (some (), f s)

/-- When `x` fails, `g` is applied to the state it leaves, and the failure passed on. -/
def onFail (x : Step σ α) (g : σ → σ) : Step σ α := fun s =>
  match x s with
  | (some a, s') => (some a, s')
  | (none, s') => (none, g s')

/-- Whether `x` succeeded. -/
def attempt (x : Step σ α) : Step σ Bool := fun s => (some (x s).1.isSome, (x s).2)

/-- One step for each element, up to the first that fails. -/
def forEach (f : α → Step σ Unit) : List α → Step σ Unit
  | [] => pure ()
  | a :: l => do
    f a
    forEach f l

/-- `forEach` with a value from each step. -/
def collect (f : α → Step σ β) : List α → Step σ (List β)
  | [] => pure []
  | a :: l => do
    let b ← f a
    let bs ← collect f l
    pure (b :: bs)

/-- `forEach` for a loop that a failing step breaks off without failing itself. -/
def forEachWhile (f : α → Step σ Unit) : List α → Step σ Unit
  | [] => pure ()
  | a :: l => do
    if ← (f a).attempt then forEachWhile f l else pure ()

@[simp] theorem run_pure (a : α) (s : σ) : (pure a : Step σ α).run s = (some a, s) := rfl

@[simp] theorem run_fail (s : σ) : (fail : Step σ α).run s = (none, s) := rfl

@[simp] theorem run_guard (b : Bool) (s : σ) :
    (guard b).run s = (if b then some () else none, s) := rfl

@[simp] theorem run_ofOption (o : Option α) (s : σ) : (ofOption o).run s = (o, s) := rfl

@[simp] theorem run_read (f : σ → α) (s : σ) : (read f).run s = (some (f s), s) := rfl

@[simp] theorem run_modify (f : σ → σ) (s : σ) : (modify f).run s = (some (), f s) := rfl

@[simp] theorem run_attempt (x : Step σ α) (s : σ) :
    x.attempt.run s = (some (x.run s).1.isSome, (x.run s).2) := rfl

theorem run_bind_of_some {x : Step σ α} {f : α → Step σ β} {s s' : σ} {a : α}
    (h : x.run s = (some a, s')) : (x >>= f).run s = (f a).run s' := by
  change (match x s with | (some a, s') => f a s' | (none, s') => (none, s')) = _
  rw [show x s = (some a, s') from h]
  rfl

theorem run_bind_of_none {x : Step σ α} {f : α → Step σ β} {s s' : σ}
    (h : x.run s = (none, s')) : (x >>= f).run s = (none, s') := by
  change (match x s with | (some a, s') => f a s' | (none, s') => (none, s')) = _
  rw [show x s = (none, s') from h]

theorem run_bind_eq_some {x : Step σ α} {f : α → Step σ β} {s s' : σ} {b : β} :
    (x >>= f).run s = (some b, s') ↔
      ∃ a s₁, x.run s = (some a, s₁) ∧ (f a).run s₁ = (some b, s') := by
  rcases h : x.run s with ⟨_ | a, s₁⟩
  · simp [run_bind_of_none h]
  · rw [run_bind_of_some h]
    constructor
    · exact fun hf => ⟨a, s₁, rfl, hf⟩
    · rintro ⟨_, _, he, hf⟩
      cases he
      exact hf

theorem run_bind_eq_none {x : Step σ α} {f : α → Step σ β} {s s' : σ} :
    (x >>= f).run s = (none, s') ↔ x.run s = (none, s') ∨
      ∃ a s₁, x.run s = (some a, s₁) ∧ (f a).run s₁ = (none, s') := by
  rcases h : x.run s with ⟨_ | a, s₁⟩
  · simp [run_bind_of_none h]
  · rw [run_bind_of_some h]
    constructor
    · exact fun hf => Or.inr ⟨a, s₁, rfl, hf⟩
    · rintro (he | ⟨_, _, he, hf⟩)
      · cases he
      · cases he
        exact hf

theorem run_guard_eq_some {b : Bool} {s s' : σ} {u : Unit} :
    (guard b).run s = (some u, s') ↔ b = true ∧ s' = s := by
  cases b <;> simp [eq_comm]

theorem run_bind_guard {b : Bool} (h : b = true) (f : Unit → Step σ β) (s : σ) :
    (guard b >>= f).run s = (f ()).run s := by
  rw [h]
  rfl

theorem run_ofOption_eq_some {o : Option α} {s s' : σ} {a : α} :
    (ofOption o).run s = (some a, s') ↔ o = some a ∧ s' = s := by
  simp [eq_comm]

theorem run_onFail_eq_some {x : Step σ α} {g : σ → σ} {s s' : σ} {a : α} :
    (x.onFail g).run s = (some a, s') ↔ x.run s = (some a, s') := by
  change (match x.run s with
    | (some a, s') => (some a, s') | (none, s') => (none, g s')) = (some a, s') ↔ _
  rcases x.run s with ⟨_ | a', s₁⟩ <;> simp

theorem run_onFail_eq_none {x : Step σ α} {g : σ → σ} {s s' : σ} :
    (x.onFail g).run s = (none, s') ↔ ∃ s₁, x.run s = (none, s₁) ∧ s' = g s₁ := by
  change (match x.run s with
    | (some a, s') => (some a, s') | (none, s') => (none, g s')) = (none, s') ↔ _
  rcases x.run s with ⟨_ | a', s₁⟩ <;> simp [eq_comm]

theorem id_map (x : Step σ α) : id <$> x = x := by
  funext s
  change (match x s with | (some a, s') => (some a, s') | (none, s') => (none, s')) = x s
  rcases x s with ⟨_ | a, s'⟩ <;> rfl

theorem bind_assoc {γ : Type} (x : Step σ α) (f : α → Step σ β) (g : β → Step σ γ) :
    x >>= f >>= g = x >>= fun a => f a >>= g := by
  funext s
  change (match (match x s with | (some a, s') => f a s' | (none, s') => (none, s')) with
    | (some b, s') => g b s' | (none, s') => (none, s')) =
    match x s with
      | (some a, s') => (match f a s' with | (some b, s') => g b s' | (none, s') => (none, s'))
      | (none, s') => (none, s')
  rcases x s with ⟨_ | a, s'⟩ <;> rfl

instance : LawfulMonad (Step σ) := LawfulMonad.mk' (Step σ) id_map (fun _ _ => rfl) bind_assoc

theorem collect_map {γ δ : Type} (f : α → Step σ β) (g : δ → α) (k : β → γ) (l : List δ) :
    collect (fun d => k <$> f (g d)) l = List.map k <$> collect f (l.map g) := by
  induction l with
  | nil => rfl
  | cons d l ih =>
    simp only [collect, List.map_cons, ih]
    simp only [map_eq_pure_bind, Step.bind_assoc, pure_bind, List.map_cons]

theorem run_map_eq_none {f : α → β} {x : Step σ α} {s s' : σ} :
    (f <$> x).run s = (none, s') ↔ x.run s = (none, s') := by
  rw [map_eq_pure_bind, run_bind_eq_none]
  simp

theorem run_map_eq_some {f : α → β} {x : Step σ α} {s s' : σ} {b : β} :
    (f <$> x).run s = (some b, s') ↔ ∃ a, x.run s = (some a, s') ∧ f a = b := by
  rw [map_eq_pure_bind, run_bind_eq_some]
  constructor
  · rintro ⟨a, s₁, h, h'⟩
    cases h'
    exact ⟨a, h, rfl⟩
  · rintro ⟨a, h, rfl⟩
    exact ⟨a, s', h, rfl⟩

theorem run_collect_append_eq_none {f : α → Step σ β} {l₁ l₂ : List α} {s s' : σ} :
    (collect f (l₁ ++ l₂)).run s = (none, s') ↔ (collect f l₁).run s = (none, s') ∨
      ∃ bs s₁, (collect f l₁).run s = (some bs, s₁) ∧ (collect f l₂).run s₁ = (none, s') := by
  have h : collect f (l₁ ++ l₂) =
      collect f l₁ >>= fun bs₁ => collect f l₂ >>= fun bs₂ => pure (bs₁ ++ bs₂) := by
    induction l₁ with
    | nil => simp only [List.nil_append, collect, pure_bind, bind_pure]
    | cons a l₁ ih =>
      simp only [List.cons_append, collect, ih, Step.bind_assoc, pure_bind]
  rw [h, run_bind_eq_none]
  simp only [run_bind_eq_none, run_pure, Prod.mk.injEq, reduceCtorEq, false_and, and_false,
    exists_false, or_false]

theorem run_collect_eq_none {f : α → Step σ β} {l : List α} {s s' : σ}
    (h : (collect f l).run s = (none, s')) :
    ∃ l₁ a l₂ bs s₁, l = l₁ ++ a :: l₂ ∧ (collect f l₁).run s = (some bs, s₁) ∧
      (f a).run s₁ = (none, s') := by
  induction l generalizing s with
  | nil => cases h
  | cons a l ih =>
    rcases run_bind_eq_none.mp h with ha | ⟨b, s₁, hb, h⟩
    · exact ⟨[], a, l, [], s, rfl, rfl, ha⟩
    · rcases run_bind_eq_none.mp h with hl | ⟨_, _, _, h⟩
      · obtain ⟨l₁, c, l₂, bs, s₂, rfl, hl₁, hc⟩ := ih hl
        refine ⟨a :: l₁, c, l₂, b :: bs, s₂, rfl, ?_, hc⟩
        exact run_bind_eq_some.mpr ⟨b, s₁, hb, run_bind_eq_some.mpr ⟨bs, s₂, hl₁, rfl⟩⟩
      · cases h

theorem run_collect_concat_eq_some {f : α → Step σ β} {l : List α} {a : α} {bs : List β}
    {s s' : σ} (h : (collect f (l ++ [a])).run s = (some bs, s')) :
    ∃ bs' s₁ b, (collect f l).run s = (some bs', s₁) ∧ (f a).run s₁ = (some b, s') ∧
      bs = bs' ++ [b] := by
  induction l generalizing s bs with
  | nil =>
    obtain ⟨b, s₁, hb, h⟩ := run_bind_eq_some.mp h
    cases h
    exact ⟨[], s, b, rfl, hb, rfl⟩
  | cons c l ih =>
    obtain ⟨d, s₁, hd, h⟩ := run_bind_eq_some.mp h
    obtain ⟨ds, s₂, hds, h⟩ := run_bind_eq_some.mp h
    cases h
    obtain ⟨bs', s₃, b, hl, hb, rfl⟩ := ih hds
    refine ⟨d :: bs', s₃, b, ?_, hb, rfl⟩
    exact run_bind_eq_some.mpr ⟨d, s₁, hd, run_bind_eq_some.mpr ⟨bs', s₃, hl, rfl⟩⟩

/-- `R` relates the state before to the state after. -/
def Keeps (R : σ → σ → Prop) (x : Step σ α) : Prop := ∀ s, R s (x.run s).2

/-- `R` relates the state before a failure to the state after it. -/
def FailKeeps (R : σ → σ → Prop) (x : Step σ α) : Prop := ∀ s s', x.run s = (none, s') → R s s'

/-- `R` relates the state before to the state a value is returned in. -/
def ReturnKeeps (R : σ → σ → Prop) (x : Step σ α) : Prop :=
  ∀ s a s', x.run s = (some a, s') → R s s'

/-- The part of the state that `f` reads is the same. -/
def Same (f : σ → β) (s s' : σ) : Prop := f s' = f s

instance (f : σ → β) : Std.Refl (Same f) := ⟨fun _ => rfl⟩

instance (f : σ → β) : IsTrans σ (Same f) := ⟨fun _ _ _ h h' => Eq.trans h' h⟩

def Total (x : Step σ α) : Prop := ∀ s, (x.run s).1.isSome = true

section Rules

variable {R : σ → σ → Prop}

theorem Keeps.failKeeps {x : Step σ α} (h : Keeps R x) : FailKeeps R x := by
  intro s s' he
  have hs := h s
  rwa [he] at hs

theorem Keeps.returnKeeps {x : Step σ α} (h : Keeps R x) : ReturnKeeps R x := by
  intro s a s' he
  have hs := h s
  rwa [he] at hs

theorem ReturnKeeps.onFail {x : Step σ α} (h : ReturnKeeps R x) (g : σ → σ) :
    ReturnKeeps R (x.onFail g) := fun s a s' he => h s a s' (run_onFail_eq_some.mp he)

theorem Total.not_fails {x : Step σ α} (h : Total x) (s s' : σ) : x.run s ≠ (none, s') := by
  intro he
  have hs := h s
  rw [he] at hs
  cases hs

theorem keeps_modify {f : σ → σ} (h : ∀ s, R s (f s)) : Keeps R (modify f) := h

theorem total_modify (f : σ → σ) : Total (modify f) := fun _ => rfl

theorem total_attempt (x : Step σ α) : Total x.attempt := fun _ => rfl

theorem Total.bind {x : Step σ α} {f : α → Step σ β} (hx : Total x) (hf : ∀ a, Total (f a)) :
    Total (x >>= f) := by
  intro s
  rcases h : x.run s with ⟨_ | a, s₁⟩
  · exact absurd h (hx.not_fails s s₁)
  · rw [run_bind_of_some h]
    exact hf a s₁

theorem total_forEachWhile (f : α → Step σ Unit) (l : List α) : Total (forEachWhile f l) := by
  induction l with
  | nil => exact fun _ => rfl
  | cons a l ih =>
    refine (total_attempt (f a)).bind fun b => ?_
    cases b
    · exact fun _ => rfl
    · exact ih

section Reflexive

variable [Std.Refl R]

theorem keeps_pure (a : α) : Keeps R (pure a) := fun s => Std.Refl.refl s

theorem keeps_fail : Keeps R (fail : Step σ α) := fun s => Std.Refl.refl s

theorem keeps_guard (b : Bool) : Keeps R (guard b) := fun s => Std.Refl.refl s

theorem keeps_ofOption (o : Option α) : Keeps R (ofOption o) := fun s => Std.Refl.refl s

theorem keeps_read (f : σ → α) : Keeps R (read f) := fun s => Std.Refl.refl s

theorem Keeps.ofOption_bind {o : Option α} {f : α → Step σ β} (hf : ∀ a ∈ o, Keeps R (f a)) :
    Keeps R (ofOption o >>= f) := by
  cases o with
  | none => exact keeps_fail
  | some a => exact hf a rfl

end Reflexive

theorem Keeps.onFail {x : Step σ α} {g : σ → σ} [IsTrans σ R] (hx : Keeps R x)
    (hg : ∀ s, R s (g s)) : Keeps R (x.onFail g) := by
  intro s
  have hs := hx s
  rcases h : x.run s with ⟨_ | a, s₁⟩
  · rw [run_onFail_eq_none.mpr ⟨s₁, h, rfl⟩]
    rw [h] at hs
    exact Trans.trans hs (hg s₁)
  · rw [run_onFail_eq_some.mpr h]
    rw [h] at hs
    exact hs

theorem Keeps.attempt {x : Step σ α} (hx : Keeps R x) : Keeps R x.attempt := hx

theorem Keeps.bind [IsTrans σ R] {x : Step σ α} {f : α → Step σ β} (hx : Keeps R x)
    (hf : ∀ a, Keeps R (f a)) : Keeps R (x >>= f) := by
  intro s
  have hs := hx s
  rcases h : x.run s with ⟨_ | a, s₁⟩
  · rw [run_bind_of_none h]
    rwa [h] at hs
  · rw [run_bind_of_some h]
    rw [h] at hs
    exact Trans.trans hs (hf a s₁)

theorem Keeps.forEach [Std.Refl R] [IsTrans σ R] {f : α → Step σ Unit} {l : List α}
    (hf : ∀ a ∈ l, Keeps R (f a)) : Keeps R (forEach f l) := by
  induction l with
  | nil => exact keeps_pure ()
  | cons a l ih =>
    exact (hf a List.mem_cons_self).bind fun _ => ih fun b hb => hf b (List.mem_cons_of_mem _ hb)

theorem Keeps.collect [Std.Refl R] [IsTrans σ R] {f : α → Step σ β} {l : List α}
    (hf : ∀ a ∈ l, Keeps R (f a)) : Keeps R (collect f l) := by
  induction l with
  | nil => exact keeps_pure []
  | cons a l ih =>
    exact (hf a List.mem_cons_self).bind fun _ =>
      (ih fun b hb => hf b (List.mem_cons_of_mem _ hb)).bind fun _ => keeps_pure _

theorem Keeps.forEachWhile [Std.Refl R] [IsTrans σ R] {f : α → Step σ Unit} {l : List α}
    (hf : ∀ a ∈ l, Keeps R (f a)) : Keeps R (forEachWhile f l) := by
  induction l with
  | nil => exact keeps_pure ()
  | cons a l ih =>
    refine (hf a List.mem_cons_self).attempt.bind fun b => ?_
    cases b with
    | false => exact keeps_pure ()
    | true => exact ih fun b hb => hf b (List.mem_cons_of_mem _ hb)

/-- A failure of `x` is a state `R` leads to; one after `x` is `S` away from such a state. -/
theorem FailKeeps.bind {S : σ → σ → Prop} {x : Step σ α} {f : α → Step σ β} (hx : FailKeeps S x)
    (hR : ReturnKeeps R x) (hRS : ∀ {a b c}, R a b → S b c → S a c) (hf : ∀ a, FailKeeps S (f a)) :
    FailKeeps S (x >>= f) := by
  intro s s' h
  rcases run_bind_eq_none.mp h with h | ⟨a, s₁, h, h'⟩
  · exact hx s s' h
  · exact hRS (hR s a s₁ h) (hf a s₁ s' h')

theorem FailKeeps.onFail {S : σ → σ → Prop} {x : Step σ α} {g : σ → σ} (hx : FailKeeps S x)
    (hg : ∀ {a b}, S a b → S a (g b)) : FailKeeps S (x.onFail g) := by
  intro s s' h
  obtain ⟨s₁, h₁, rfl⟩ := run_onFail_eq_none.mp h
  exact hg (hx s s₁ h₁)

/-- Nothing fails after `x`, so that all that matters is what `x` does when it fails. -/
theorem FailKeeps.bind_total {x : Step σ α} {f : α → Step σ β} (hx : FailKeeps R x)
    (hf : ∀ a, Total (f a)) : FailKeeps R (x >>= f) := by
  intro s s' h
  rcases run_bind_eq_none.mp h with h | ⟨a, s₁, _, h'⟩
  · exact hx s s' h
  · exact absurd h' ((hf a).not_fails s₁ s')

end Rules

end Step

theorem foldlM_invariant {σ α : Type*} {f : σ → α → Option σ} {I : List α → σ → Prop} {l : List α}
    (hstep : ∀ done a rest s, l = done ++ a :: rest → I done s →
      ∃ s', f s a = some s' ∧ I (done ++ [a]) s') {s : σ} (h : I [] s) :
    ∃ s', l.foldlM f s = some s' ∧ I l s' := by
  have hrest : ∀ rest done s, l = done ++ rest → I done s →
      ∃ s', rest.foldlM f s = some s' ∧ I l s' := by
    intro rest
    induction rest with
    | nil =>
      intro done s hl hs
      rw [hl, List.append_nil]
      exact ⟨s, rfl, hs⟩
    | cons a rest ih =>
      intro done s hl hs
      obtain ⟨s₁, hf, hs₁⟩ := hstep done a rest s hl hs
      rw [List.foldlM_cons, hf]
      exact ih (done ++ [a]) s₁ (by rw [hl, List.append_assoc, List.singleton_append]) hs₁
  exact hrest l [] s rfl h

/-- A property of each step and the steps before it. -/
def EachStep {α : Type*} (p : List α → α → Prop) (steps : List α) : Prop :=
  ∀ done a, done ++ [a] <+: steps → p done a

theorem eachStep_nil {α : Type*} (p : List α → α → Prop) : EachStep p [] := by
  intro done a h
  cases List.append_eq_nil_iff.mp (List.prefix_nil.mp h) with
  | intro _ hnil => cases hnil

theorem eachStep_cons {α : Type*} {p : List α → α → Prop} {a : α} {steps : List α} :
    EachStep p (a :: steps) ↔ p [] a ∧ EachStep (fun done => p (a :: done)) steps := by
  constructor
  · intro h
    refine ⟨h [] a ⟨steps, rfl⟩, fun done b hdone => h (a :: done) b ?_⟩
    exact List.cons_prefix_cons.mpr ⟨rfl, hdone⟩
  · rintro ⟨hfirst, hrest⟩ done b hdone
    cases done with
    | nil =>
      rw [(List.cons_prefix_cons.mp hdone).1]
      exact hfirst
    | cons c done =>
      obtain ⟨rfl, hdone'⟩ := List.cons_prefix_cons.mp hdone
      exact hrest done b hdone'

theorem EachStep.invariant {α σ : Type*} {f : σ → α → σ} {I : σ → Prop} {p : σ → α → Prop} {s : σ}
    {steps : List α} (h : EachStep (fun done a => p (done.foldl f s) a) steps) (hs : I s)
    (hstep : ∀ s a, I s → p s a → I (f s a)) {done : List α} (hdone : done <+: steps) :
    I (done.foldl f s) := by
  induction done using List.reverseRecOn with
  | nil => exact hs
  | append_singleton done a ih =>
    rw [List.foldl_concat]
    exact hstep _ a (ih ((List.prefix_append _ _).trans hdone)) (h done a hdone)

/-- Where a step from a state with the invariant keeps it just if it meets the condition, the
invariant holds throughout the run just if each step meets it. `J` holds of every state. -/
theorem eachStep_iff {α σ : Type*} {f : σ → α → σ} {I J : σ → Prop} {p : σ → α → Prop} {s : σ}
    (hs : I s) (hJ : ∀ done : List α, J (done.foldl f s))
    (hstep : ∀ s a, J s → I s → (I (f s a) ↔ p s a)) (steps : List α) :
    (∀ done, done <+: steps → I (done.foldl f s)) ↔
      EachStep (fun done a => p (done.foldl f s) a) steps := by
  constructor
  · intro h done a hdone
    have hafter := h _ hdone
    rw [List.foldl_concat] at hafter
    exact (hstep _ a (hJ done) (h done ((List.prefix_append _ _).trans hdone))).mp hafter
  · intro h done
    induction done using List.reverseRecOn with
    | nil => exact fun _ => hs
    | append_singleton done a ih =>
      intro hdone
      rw [List.foldl_concat]
      have hbefore := ih ((List.prefix_append _ _).trans hdone)
      exact (hstep _ a (hJ done) hbefore).mpr (h done a hdone)

end Fallible
