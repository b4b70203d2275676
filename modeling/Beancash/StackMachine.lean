import Mathlib.Data.List.Basic
import Mathlib.Data.Int.Notation
import Mathlib.Data.Nat.Notation

/-!
# Machines with stacks

A stack is a list with its top first, and the place of the top is `-1`. An operation that reaches
below the bottom ends in `Halt.underflow`. `Safe Q x` says that `x` does not, and that what it returns
satisfies `Q`; the rules go along the structure of an instruction, given how high the stack is.
-/

namespace StackMachine

/-- How an instruction ends that does not go on: the run is refused, an exception is thrown, or
there is nothing on the stack where it reaches. -/
inductive Halt (ε : Type) where
  | refused
  | thrown (e : ε)
  | underflow
deriving DecidableEq

abbrev Eval (ε α : Type) := Except (Halt ε) α

variable {ε α β : Type}

/-- A check that refuses the run. -/
def require (p : Prop) [Decidable p] : Eval ε Unit := if p then .ok () else .error .refused

/-- The element at a place. -/
def peek (stack : List α) : ℤ → Eval ε α
  | .negSucc n => stack[n]?.elim (.error .underflow) .ok
  | .ofNat _ => .error .underflow

def pop : List α → Eval ε (List α)
  | _ :: stack => .ok stack
  | [] => .error .underflow

def popMany : ℕ → List α → Eval ε (List α)
  | n + 1, stack => do
    let stack ← pop stack
    popMany n stack
  | 0, stack => pure stack

/-- The place gets another element. -/
def put (stack : List α) (i : ℤ) (a : α) : Eval ε (List α) :=
  match i with
  | .negSucc n => if n < stack.length then .ok (stack.set n a) else .error .underflow
  | .ofNat _ => .error .underflow

def swapAt (stack : List α) (i j : ℤ) : Eval ε (List α) := do
  let a ← peek stack i
  let b ← peek stack j
  let stack ← put stack i b
  put stack j a

def eraseAt (stack : List α) : ℤ → Eval ε (List α)
  | .negSucc n => if n < stack.length then .ok (stack.eraseIdx n) else .error .underflow
  | .ofNat _ => .error .underflow

/-- The places from `-first` up to `-last`, which is not one of them. -/
def eraseRange (stack : List α) (first last : ℕ) : Eval ε (List α) :=
  if first ≤ stack.length then .ok (stack.take last ++ stack.drop first) else .error .underflow

/-- An element is put in below as many others. -/
def insertBelow (stack : List α) (n : ℕ) (a : α) : Eval ε (List α) :=
  if n ≤ stack.length then .ok (stack.insertIdx n a) else .error .underflow

theorem exists_negSucc {i : ℤ} {n : ℕ} (hi : i < 0) (hn : -i ≤ n) :
    ∃ k, i = .negSucc k ∧ k < n := by
  obtain ⟨k, rfl⟩ := Int.eq_negSucc_of_lt_zero hi
  exact ⟨k, rfl, by omega⟩

def Safe (Q : α → Prop) : Eval ε α → Prop
  | .ok a => Q a
  | .error halt => halt ≠ .underflow

namespace Safe

variable {P Q : α → Prop} {R : β → Prop}

theorem bind {x : Eval ε α} {f : α → Eval ε β} (hx : Safe P x) (hf : ∀ a, P a → Safe R (f a)) :
    Safe R (x >>= f) := by
  cases x with
  | ok a => exact hf a hx
  | error halt => exact hx

theorem mono {x : Eval ε α} (hx : Safe P x) (h : ∀ a, P a → Q a) : Safe Q x := by
  cases x with
  | ok a => exact h a hx
  | error halt => exact hx

theorem map {x : Eval ε α} {f : α → β} (hx : Safe P x) (hf : ∀ a, P a → R (f a)) :
    Safe R (f <$> x) := by
  cases x with
  | ok a => exact hf a hx
  | error halt => exact hx

theorem refused : Safe Q (.error .refused : Eval ε α) := by
  intro h
  cases h

theorem thrown (e : ε) : Safe Q (.error (.thrown e) : Eval ε α) := by
  intro h
  cases h

theorem require {p : Prop} [Decidable p] : Safe (fun _ => p) (require p : Eval ε Unit) := by
  unfold StackMachine.require
  split
  · assumption
  · exact refused

theorem require_bind {p : Prop} [Decidable p] {f : Unit → Eval ε α} (hf : p → Safe Q (f ())) :
    Safe Q (StackMachine.require p >>= f) :=
  require.bind fun _ => hf

theorem ne_underflow {x : Eval ε α} (hx : Safe Q x) : x ≠ .error .underflow := by
  rintro rfl
  exact hx rfl

theorem of_eq_ok {x : Eval ε α} {a : α} (hx : Safe Q x) (heq : x = .ok a) : Q a := by
  rw [heq] at hx
  exact hx

end Safe

def Returns (Q : α → Prop) (x : Eval ε α) : Prop := ∀ a, x = .ok a → Q a

namespace Returns

variable {Q : α → Prop} {R : β → Prop}

theorem pure {a : α} (h : Q a) : Returns Q (pure a : Eval ε α) := by
  intro a' ha'
  cases ha'
  exact h

theorem error (halt : Halt ε) : Returns Q (.error halt : Eval ε α) := by
  intro a ha
  cases ha

theorem bind {x : Eval ε α} {f : α → Eval ε β} (hx : Returns Q x)
    (hf : ∀ a, Q a → Returns R (f a)) : Returns R (x >>= f) := by
  cases x with
  | ok a => exact hf a (hx a rfl)
  | error halt => exact error halt

theorem self (x : Eval ε α) : Returns (fun a => x = .ok a) x := fun _ => id

theorem bind_of_eq {x : Eval ε α} {f : α → Eval ε β} {a : α} (hx : x = .ok a)
    (hf : Returns R (f a)) : Returns R (x >>= f) := by
  rw [hx]
  exact hf

theorem require_bind {p : Prop} [Decidable p] {f : Unit → Eval ε α}
    (hf : p → Returns Q (f ())) : Returns Q (StackMachine.require p >>= f) := by
  unfold StackMachine.require
  split
  · exact hf (by assumption)
  · exact error _

theorem after {x : Eval ε α} {f : α → Eval ε β} (hf : ∀ a, Returns R (f a)) :
    Returns R (x >>= f) :=
  bind (Q := fun _ => True) (fun _ _ => trivial) fun a _ => hf a

end Returns

/-- The height of a stack, and what each of its elements satisfies. -/
structure Holds (P : α → Prop) (n : ℕ) (stack : List α) : Prop where
  length : stack.length = n
  all : ∀ a ∈ stack, P a

namespace Holds

variable {P : α → Prop} {n : ℕ} {stack : List α}

theorem push {a : α} (h : Holds P n stack) (ha : P a) : Holds P (n + 1) (a :: stack) where
  length := congrArg (· + 1) h.length
  all := List.forall_mem_cons.mpr ⟨ha, h.all⟩

theorem peek {i : ℤ} (h : Holds P n stack) (hi : i < 0) (hn : -i ≤ n) :
    Safe P (peek stack i : Eval ε α) := by
  obtain ⟨k, rfl, hk⟩ := exists_negSucc hi hn
  rw [← h.length] at hk
  simp only [StackMachine.peek, List.getElem?_eq_getElem hk, Option.elim_some]
  exact h.all _ (List.getElem_mem hk)

theorem pop (h : Holds P n stack) (hn : 0 < n) :
    Safe (Holds P (n - 1)) (pop stack : Eval ε (List α)) := by
  cases stack with
  | nil =>
    have hnil := h.length
    simp only [List.length_nil] at hnil
    omega
  | cons a stack =>
    have hcons := h.length
    rw [List.length_cons] at hcons
    exact ⟨by omega, fun b hb => h.all b (List.mem_cons_of_mem a hb)⟩

theorem popMany {k : ℕ} (h : Holds P n stack) (hn : k ≤ n) :
    Safe (Holds P (n - k)) (popMany k stack : Eval ε (List α)) := by
  induction k generalizing n stack with
  | zero => exact h
  | succ k ih =>
    apply (h.pop (by omega)).bind
    intro stack' h'
    have hk : n - (k + 1) = n - 1 - k := by omega
    rw [hk]
    exact ih h' (by omega)

theorem put {i : ℤ} {a : α} (h : Holds P n stack) (ha : P a) (hi : i < 0) (hn : -i ≤ n) :
    Safe (Holds P n) (put stack i a : Eval ε (List α)) := by
  obtain ⟨k, rfl, hk⟩ := exists_negSucc hi hn
  rw [← h.length] at hk
  simp only [StackMachine.put, if_pos hk]
  refine ⟨by rw [List.length_set, h.length], fun b hb => ?_⟩
  rcases List.mem_or_eq_of_mem_set hb with hb | rfl
  · exact h.all b hb
  · exact ha

theorem swapAt {i j : ℤ} (h : Holds P n stack) (hi : i < 0) (hin : -i ≤ n) (hj : j < 0)
    (hjn : -j ≤ n) : Safe (Holds P n) (swapAt stack i j : Eval ε (List α)) := by
  apply (h.peek hi hin).bind
  intro a ha
  apply (h.peek hj hjn).bind
  intro b hb
  apply (h.put hb hi hin).bind
  intro stack' h'
  exact h'.put ha hj hjn

theorem eraseAt {i : ℤ} (h : Holds P n stack) (hi : i < 0) (hn : -i ≤ n) :
    Safe (Holds P (n - 1)) (eraseAt stack i : Eval ε (List α)) := by
  obtain ⟨k, rfl, hk⟩ := exists_negSucc hi hn
  rw [← h.length] at hk
  simp only [StackMachine.eraseAt, if_pos hk]
  exact ⟨by rw [List.length_eraseIdx_of_lt hk, h.length],
    fun b hb => h.all b (List.mem_of_mem_eraseIdx hb)⟩

theorem eraseRange {first last : ℕ} (h : Holds P n stack) (hn : first ≤ n) (hle : last ≤ first) :
    Safe (Holds P (n - (first - last))) (eraseRange stack first last : Eval ε (List α)) := by
  rw [← h.length] at hn
  simp only [StackMachine.eraseRange, if_pos hn]
  refine ⟨?_, fun b hb => ?_⟩
  · have hlen := h.length
    rw [List.length_append, List.length_take, List.length_drop]
    omega
  · rcases List.mem_append.mp hb with hb | hb
    · exact h.all b (List.mem_of_mem_take hb)
    · exact h.all b (List.mem_of_mem_drop hb)

theorem insertBelow {k : ℕ} {a : α} (h : Holds P n stack) (ha : P a) (hn : k ≤ n) :
    Safe (Holds P (n + 1)) (insertBelow stack k a : Eval ε (List α)) := by
  have hk : k ≤ stack.length := by
    rw [h.length]
    exact hn
  simp only [StackMachine.insertBelow, if_pos hk]
  refine ⟨by rw [List.length_insertIdx_of_le_length hk, h.length], fun b hb => ?_⟩
  rcases (List.mem_insertIdx hk).mp hb with rfl | hb
  · exact ha
  · exact h.all b hb

end Holds

end StackMachine
