import Mathlib.Data.List.Lex
import Mathlib.Data.Multiset.DershowitzManna
import Mathlib.Data.Prod.Lex

/-!
# Work queues

A loop takes keys from a queue, looks up each one that it has not had yet and puts more keys at the
end of the queue. A key comes first by the least of its chains: the shortest ones, and of these the
first one by the places where they go on. What can be looked up may depend on what was found before.
-/

namespace WorkQueue

section Rounds

variable {σ τ β : Type*}

/-- A loop of at most so many rounds; a round ends it or goes on. -/
def run (round : σ → β ⊕ σ) : ℕ → σ → Option β
  | 0, _ => none
  | n + 1, s => (round s).elim some (run round n)

variable {round : σ → β ⊕ σ}

theorem run_of_inl {s : σ} {b : β} (h : round s = .inl b) (n : ℕ) : run round (n + 1) s = some b := by
  rw [run, h, Sum.elim_inl]

theorem run_of_inr {s s' : σ} (h : round s = .inr s') (n : ℕ) :
    run round (n + 1) s = run round n s' := by
  rw [run, h, Sum.elim_inr]

theorem exists_run {I : σ → Prop} {r : σ → Multiset ℕ}
    (h : ∀ s s', I s → round s = .inr s' →
      I s' ∧ Multiset.IsDershowitzMannaLT (r s') (r s)) {s : σ} (hs : I s) :
    ∃ n b, run round n s = some b := by
  generalize hr : r s = m
  induction m using (Multiset.wellFounded_isDershowitzMannaLT (α := ℕ)).induction generalizing s with
  | _ m ih =>
    cases hround : round s with
    | inl b => exact ⟨1, b, run_of_inl hround 0⟩
    | inr s' =>
      obtain ⟨hs', hlt⟩ := h s s' hs hround
      obtain ⟨n, b, hrun⟩ := ih _ (hr ▸ hlt) hs' rfl
      exact ⟨n + 1, b, (run_of_inr hround n).trans hrun⟩

theorem isDershowitzMannaLT_append {a : ℕ} {l m : List ℕ} (h : ∀ b ∈ m, b < a) :
    Multiset.IsDershowitzMannaLT (Multiset.ofList (l ++ m)) (Multiset.ofList (a :: l)) := by
  refine ⟨Multiset.ofList l, Multiset.ofList m, {a}, Multiset.singleton_ne_zero a,
    (Multiset.coe_add l m).symm, ?_, ?_⟩
  · rw [← Multiset.cons_coe, Multiset.add_comm, Multiset.singleton_add]
  · exact fun b hb => ⟨a, Multiset.mem_singleton_self a, h b (Multiset.mem_coe.mp hb)⟩

theorem run_induction {I : σ → Prop} (hstep : ∀ s s', I s → round s = .inr s' → I s') {n : ℕ}
    {s : σ} {b : β} (hs : I s) (h : run round n s = some b) : ∃ s', I s' ∧ round s' = .inl b := by
  induction n generalizing s with
  | zero => cases h
  | succ n ih =>
    cases hround : round s with
    | inl b' =>
      rw [run_of_inl hround] at h
      exact ⟨s, hs, hround.trans (congrArg Sum.inl (Option.some.inj h))⟩
    | inr s' =>
      rw [run_of_inr hround] at h
      exact ih (hstep s s' hs hround) h

theorem run_map {round' : τ → β ⊕ τ} (f : σ → τ) (h : ∀ s, round' (f s) = (round s).map id f) (n : ℕ)
    (s : σ) : run round' n (f s) = run round n s := by
  induction n generalizing s with
  | zero => rfl
  | succ n ih =>
    cases hround : round s with
    | inl b =>
      rw [run_of_inl hround, run_of_inl (by rw [h, hround]; rfl)]
      rfl
    | inr s' => rw [run_of_inr hround, ← ih, run_of_inr (by rw [h, hround]; rfl)]

end Rounds

/-- Shorter chains come first, then the order is lexicographic. -/
def place (p : List ℕ) : ℕ ×ₗ List ℕ := toLex (p.length, p)

section Places

variable {p q : List ℕ} {i j : ℕ}

theorem place_lt_iff : place p < place q ↔ p.length < q.length ∨ p.length = q.length ∧ p < q :=
  Prod.Lex.toLex_lt_toLex

theorem place_inj : place p = place q ↔ p = q :=
  ⟨fun h => congrArg (fun x => (ofLex x).2) h, congrArg place⟩

theorem place_lt_append (p : List ℕ) (i : ℕ) : place p < place (p ++ [i]) := by
  rw [place_lt_iff, List.length_append, List.length_singleton]
  exact .inl (Nat.lt_succ_self _)

theorem append_lt_append (hlen : p.length = q.length) (h : p < q) (l m : List ℕ) :
    p ++ l < q ++ m := by
  induction p generalizing q with
  | nil =>
    obtain rfl := List.length_eq_zero_iff.mp hlen.symm
    exact absurd h (lt_irrefl _)
  | cons a p ih =>
    cases q with
    | nil => cases hlen
    | cons b q =>
      rw [List.cons_append, List.cons_append, List.cons_lt_cons_iff]
      rw [List.cons_lt_cons_iff] at h
      exact h.imp_right fun htail => ⟨htail.1, ih (Nat.succ.inj hlen) htail.2⟩

theorem place_append_lt (h : place p < place q) : place (p ++ [i]) < place (q ++ [j]) := by
  rw [place_lt_iff, List.length_append, List.length_append] at *
  rcases h with hlen | ⟨hlen, hlt⟩
  · exact .inl (Nat.add_lt_add_right hlen 1)
  · exact .inr ⟨congrArg (· + 1) hlen, append_lt_append hlen hlt _ _⟩

theorem place_append_le (h : place p ≤ place q) : place (p ++ [i]) ≤ place (q ++ [i]) := by
  rcases h.lt_or_eq with hlt | heq
  · exact (place_append_lt hlt).le
  · rw [place_inj.mp heq]

theorem place_append_lt_append (h : i < j) : place (p ++ [i]) < place (p ++ [j]) := by
  rw [place_lt_iff, List.length_append, List.length_append]
  refine .inr ⟨rfl, ?_⟩
  exact List.append_left_lt (List.cons_lt_cons_iff.mpr (.inl h))

end Places

/-- How keys are looked up in what is known, and what a node puts in the queue. -/
structure Search (κ ν ε : Type*) where
  find : ε → κ → Option (ν × ε)
  next : ν → List κ

structure State (κ ν ε : Type*) where
  queue : List κ
  done : List κ
  known : ε
  out : List ν

variable {κ ν ε : Type*}

def Search.round [DecidableEq κ] (S : Search κ ν ε) (s : State κ ν ε) : List ν ⊕ State κ ν ε :=
  match s.queue with
  | [] => .inl s.out
  | k :: queue =>
    if k ∈ s.done then .inr { s with queue := queue }
    else
      match S.find s.known k with
      | none => .inr { s with queue := queue, done := k :: s.done }
      | some (x, known) => .inr ⟨queue ++ S.next x, k :: s.done, known, s.out ++ [x]⟩

/-- The keys that a search starts with, `edge k i k'` if `k'` is the `i`-th of what the node of `k` puts
in the queue, the keys that are always found, and what is found besides after a key was found. -/
structure Graph (κ : Type*) where
  start : List κ
  edge : κ → ℕ → κ → Prop
  base : κ → Prop
  brings : κ → κ → Prop

namespace Graph

variable (G : Graph κ) (found : κ → Prop)

/-- The chains to a key through found ones. -/
inductive Chain : List ℕ → κ → Prop
  | start {i k} : G.start[i]? = some k → Chain [i] k
  | step {p k i k'} : Chain p k → found k → G.edge k i k' → Chain (p ++ [i]) k'

/-- Some chain to a key comes before all chains to another one. -/
def Before (k k' : κ) : Prop :=
  ∃ p, G.Chain found p k ∧ ∀ q, G.Chain found q k' → place p < place q

/-- Of the keys with a chain those are found that always are, or are brought by one before them. -/
def Consistent : Prop :=
  ∀ k p, G.Chain found p k → (found k ↔ G.base k ∨ ∃ w, G.brings w k ∧ G.Before found w k)

end Graph

/-- What a search does: `knows e ks` says that `e` is known after `ks` were found. -/
structure Search.Spec (S : Search κ ν ε) (G : Graph κ) (key : ν → κ) (knows : ε → List κ → Prop) :
    Prop where
  find : ∀ {e ks k x e'}, knows e ks → S.find e k = some (x, e') →
    key x = k ∧ knows e' (k :: ks) ∧ ∀ i k', (S.next x)[i]? = some k' ↔ G.edge k i k'
  isSome_find : ∀ {e ks k}, knows e ks →
    ((S.find e k).isSome ↔ G.base k ∨ ∃ w ∈ ks, G.brings w k)
  base : ∀ {w k}, G.brings w k → G.base w

/-- The keys that a node puts in the queue, with the chains to them. -/
def children (p : List ℕ) (l : List κ) : List (List ℕ × κ) := l.mapIdx fun i k => (p ++ [i], k)

theorem map_snd_children (p : List ℕ) (l : List κ) : (children p l).map Prod.snd = l := by
  apply List.ext_getElem?
  intro i
  rw [List.getElem?_map, children, List.getElem?_mapIdx, Option.map_map]
  cases l[i]? <;> rfl

theorem mem_children {p q : List ℕ} {l : List κ} {k : κ} :
    (q, k) ∈ children p l ↔ ∃ i, l[i]? = some k ∧ q = p ++ [i] := by
  rw [List.mem_iff_getElem?]
  simp only [children, List.getElem?_mapIdx, Option.map_eq_some_iff, Prod.mk.injEq]
  constructor
  · rintro ⟨i, k', hk, rfl, rfl⟩
    exact ⟨i, hk, rfl⟩
  · rintro ⟨i, hk, rfl⟩
    exact ⟨i, k, hk, rfl, rfl⟩

theorem pairwise_children (p : List ℕ) (l : List κ) :
    (children p l).Pairwise fun x y => place x.1 < place y.1 := by
  rw [List.pairwise_iff_getElem]
  intro i j hi hj hij
  simp only [children, List.getElem_mapIdx]
  exact place_append_lt_append hij

section

variable {G : Graph κ} {key : ν → κ} {knows : ε → List κ → Prop} {found : κ → Prop}

/-- `A` are the chains of the keys that were taken from the queue, `B` those of the ones in it, and `L`
those of the nodes in the list. -/
structure Inv (G : Graph κ) (key : ν → κ) (knows : ε → List κ → Prop) (found : κ → Prop)
    (s : State κ ν ε) (A B L : List (List ℕ × κ)) : Prop where
  queue : B.map Prod.snd = s.queue
  done : ∀ k, k ∈ s.done ↔ ∃ p, (p, k) ∈ A
  out : s.out.map key = L.map Prod.snd
  known : knows s.known (L.map Prod.snd).reverse
  sorted : (A ++ B).Pairwise fun x y => place x.1 < place y.1
  sublist : L.Sublist A
  chain : ∀ x ∈ A ++ B, G.Chain found x.1 x.2
  start : ∀ i k, G.start[i]? = some k → ([i], k) ∈ A ++ B
  step : ∀ x ∈ L, ∀ i k, G.edge x.2 i k → (x.1 ++ [i], k) ∈ A ++ B
  isFound : ∀ x ∈ L, found x.2
  least : ∀ x ∈ L, ∀ q, G.Chain found q x.2 → place x.1 ≤ place q
  listed : ∀ x ∈ A, found x.2 → ∃ p, (p, x.2) ∈ L
  origin : ∀ x ∈ B, ∃ p i, x.1 = p ++ [i] ∧ ∀ y ∈ B, place p < place y.1
  first : ∀ x ∈ A, ∃ p, (p, x.2) ∈ A ∧ (∀ q, G.Chain found q x.2 → place p ≤ place q) ∧
    (found x.2 ↔ G.base x.2 ∨ ∃ y ∈ L, place y.1 < place p ∧ G.brings y.2 x.2)

namespace Inv

variable {s : State κ ν ε} {A B L : List (List ℕ × κ)} {p : List ℕ} {k : κ}

theorem lt (h : Inv G key knows found s A B L) {x y : List ℕ × κ} (hx : x ∈ A) (hy : y ∈ B) :
    place x.1 < place y.1 :=
  (List.pairwise_append.mp h.sorted).2.2 x hx y hy

theorem head_le (h : Inv G key knows found s A ((p, k) :: B) L) {x : List ℕ × κ}
    (hx : x ∈ (p, k) :: B) : place p ≤ place x.1 := by
  have hB := List.pairwise_cons.mp (List.pairwise_append.mp h.sorted).2.1
  rcases List.mem_cons.mp hx with rfl | hmem
  · exact le_rfl
  · exact (hB.1 x hmem).le

theorem complete (h : Inv G key knows found s A B L) {q : List ℕ} (hq : G.Chain found q k) :
    (∃ p, (p, k) ∈ A ++ B ∧ place p ≤ place q) ∨ ∃ x ∈ B, place x.1 < place q := by
  induction hq with
  | start hi => exact .inl ⟨_, h.start _ _ hi, le_rfl⟩
  | @step q k i k' hchain hfound hedge ih =>
    rcases ih with ⟨p, hp, hle⟩ | ⟨x, hx, hlt⟩
    · rcases List.mem_append.mp hp with hA | hB
      · obtain ⟨p', hp'⟩ := h.listed _ hA hfound
        exact .inl ⟨p' ++ [i], h.step _ hp' i k' hedge, place_append_le (h.least _ hp' q hchain)⟩
      · exact .inr ⟨_, hB, hle.trans_lt (place_lt_append q i)⟩
    · exact .inr ⟨x, hx, hlt.trans (place_lt_append q i)⟩

theorem mem_of_lt_head (h : Inv G key knows found s A ((p, k) :: B) L) {q : List ℕ} {k' : κ}
    (hq : G.Chain found q k') (hlt : place q < place p) : ∃ p', (p', k') ∈ A := by
  rcases h.complete hq with ⟨p', hp', hle⟩ | ⟨x, hx, hxq⟩
  · rcases List.mem_append.mp hp' with hA | hmem
    · exact ⟨p', hA⟩
    · exact absurd ((h.head_le hmem).trans hle) (not_le.mpr hlt)
  · exact absurd ((h.head_le hx).trans hxq.le) (not_le.mpr hlt)

theorem least_head (h : Inv G key knows found s A ((p, k) :: B) L) (hk : k ∉ s.done) {q : List ℕ}
    (hq : G.Chain found q k) : place p ≤ place q := by
  by_contra hlt
  exact hk ((h.done k).mpr (h.mem_of_lt_head hq (not_le.mp hlt)))

theorem isSome_find_iff {S : Search κ ν ε} (hS : S.Spec G key knows)
    (h : Inv G key knows found s A ((p, k) :: B) L) :
    (S.find s.known k).isSome ↔
      G.base k ∨ ∃ y ∈ L, place y.1 < place p ∧ G.brings y.2 k := by
  rw [hS.isSome_find h.known]
  refine or_congr_right ⟨?_, ?_⟩
  · rintro ⟨w, hw, hbrings⟩
    obtain ⟨y, hy, rfl⟩ := List.mem_map.mp (List.mem_reverse.mp hw)
    exact ⟨y, hy, h.lt (h.sublist.subset hy) List.mem_cons_self, hbrings⟩
  · rintro ⟨y, hy, -, hbrings⟩
    exact ⟨y.2, List.mem_reverse.mpr (List.mem_map_of_mem hy), hbrings⟩

theorem isSome_find_iff_found {S : Search κ ν ε} (hS : S.Spec G key knows)
    (hfound : G.Consistent found) (h : Inv G key knows found s A ((p, k) :: B) L)
    (hk : k ∉ s.done) : (S.find s.known k).isSome ↔ found k := by
  have hchain : G.Chain found p k := h.chain _ (List.mem_append_right _ List.mem_cons_self)
  rw [h.isSome_find_iff hS, hfound k p hchain]
  refine or_congr_right ⟨?_, ?_⟩
  · rintro ⟨y, hy, hlt, hbrings⟩
    have hy' : G.Chain found y.1 y.2 := h.chain _ (List.mem_append_left _ (h.sublist.subset hy))
    exact ⟨y.2, hbrings, y.1, hy', fun q hq => hlt.trans_le (h.least_head hk hq)⟩
  · rintro ⟨w, hbrings, q, hq, hbefore⟩
    obtain ⟨p', hp'⟩ := h.mem_of_lt_head hq (hbefore p hchain)
    have hw : found w := (hfound w q hq).mpr (.inl (hS.base hbrings))
    obtain ⟨p', hp'⟩ := h.listed _ hp' hw
    exact ⟨(p', w), hp', h.lt (h.sublist.subset hp') List.mem_cons_self, hbrings⟩

theorem advance {queue done : List κ} (h : Inv G key knows found s A ((p, k) :: B) L)
    (hqueue : s.queue = k :: queue) (hdone : ∀ k', k' ∈ done ↔ ∃ q, (q, k') ∈ A ++ [(p, k)])
    (hlisted : found k → ∃ q, (q, k) ∈ L)
    (hfirst : ∀ x ∈ A ++ [(p, k)], ∃ q, (q, x.2) ∈ A ++ [(p, k)] ∧
      (∀ r, G.Chain found r x.2 → place q ≤ place r) ∧
      (found x.2 ↔ G.base x.2 ∨ ∃ y ∈ L, place y.1 < place q ∧ G.brings y.2 x.2)) :
    Inv G key knows found { s with queue := queue, done := done } (A ++ [(p, k)]) B L where
  queue := (List.cons.inj (h.queue.trans hqueue)).2
  done := hdone
  out := h.out
  known := h.known
  sorted := by rw [List.append_assoc]; exact h.sorted
  sublist := h.sublist.trans (List.sublist_append_left _ _)
  chain := by rw [List.append_assoc]; exact h.chain
  start := by rw [List.append_assoc]; exact h.start
  step := by rw [List.append_assoc]; exact h.step
  isFound := h.isFound
  least := h.least
  listed x hx hfound := by
    rcases List.mem_append.mp hx with hA | hlast
    · exact h.listed x hA hfound
    · obtain rfl := List.mem_singleton.mp hlast
      exact hlisted hfound
  origin x hx := by
    obtain ⟨q, i, hx', hq⟩ := h.origin x (List.mem_cons_of_mem _ hx)
    exact ⟨q, i, hx', fun y hy => hq y (List.mem_cons_of_mem _ hy)⟩
  first := hfirst

theorem skip {queue : List κ} (h : Inv G key knows found s A ((p, k) :: B) L) (hk : k ∈ s.done)
    (hqueue : s.queue = k :: queue) :
    Inv G key knows found { s with queue := queue } (A ++ [(p, k)]) B L := by
  obtain ⟨p', hp'⟩ := (h.done k).mp hk
  -- the key was visited before
  have hvisited : ∀ {x}, x ∈ A ++ [(p, k)] → ∃ q, (q, x.2) ∈ A := by
    intro x hx
    rcases List.mem_append.mp hx with hA | hlast
    · exact ⟨x.1, hA⟩
    · obtain rfl := List.mem_singleton.mp hlast
      exact ⟨p', hp'⟩
  refine h.advance hqueue (fun k' => ?_) (h.listed (p', k) hp') fun x hx => ?_
  · rw [h.done]
    exact ⟨fun ⟨q, hq⟩ => ⟨q, List.mem_append_left _ hq⟩, fun ⟨q, hq⟩ => hvisited hq⟩
  · obtain ⟨q, hq⟩ := hvisited hx
    obtain ⟨r, hr, hrest⟩ := h.first _ hq
    exact ⟨r, List.mem_append_left _ hr, hrest⟩

theorem done_append (h : Inv G key knows found s A ((p, k) :: B) L) (k' : κ) :
    k' ∈ k :: s.done ↔ ∃ q, (q, k') ∈ A ++ [(p, k)] := by
  rw [List.mem_cons, h.done]
  constructor
  · rintro (rfl | ⟨q, hq⟩)
    · exact ⟨p, List.mem_append_right _ (List.mem_singleton_self _)⟩
    · exact ⟨q, List.mem_append_left _ hq⟩
  · rintro ⟨q, hq⟩
    rcases List.mem_append.mp hq with hA | hlast
    · exact .inr ⟨q, hA⟩
    · exact .inl (Prod.mk.inj (List.mem_singleton.mp hlast)).2

/-- The first visits stay what they are when a key is visited; `M` is what gets into the list. -/
theorem first_append {S : Search κ ν ε} (hS : S.Spec G key knows)
    (h : Inv G key knows found s A ((p, k) :: B) L) (hk : k ∉ s.done)
    (hfound : (S.find s.known k).isSome ↔ found k) {M : List (List ℕ × κ)}
    (hM : ∀ y ∈ M, y = (p, k)) : ∀ x ∈ A ++ [(p, k)], ∃ q, (q, x.2) ∈ A ++ [(p, k)] ∧
      (∀ r, G.Chain found r x.2 → place q ≤ place r) ∧
      (found x.2 ↔ G.base x.2 ∨ ∃ y ∈ L ++ M, place y.1 < place q ∧ G.brings y.2 x.2) := by
  have hlist : ∀ q k', place q ≤ place p → ((∃ y ∈ L ++ M, place y.1 < place q ∧ G.brings y.2 k') ↔
      ∃ y ∈ L, place y.1 < place q ∧ G.brings y.2 k') := by
    intro q k' hle
    constructor
    · rintro ⟨y, hy, hlt, hbrings⟩
      rcases List.mem_append.mp hy with hL | hlast
      · exact ⟨y, hL, hlt, hbrings⟩
      · rw [hM y hlast] at hlt
        exact absurd hle (not_le.mpr hlt)
    · exact fun ⟨y, hy, hrest⟩ => ⟨y, List.mem_append_left _ hy, hrest⟩
  intro x hx
  rcases List.mem_append.mp hx with hA | hlast
  · obtain ⟨q, hq, hleast, hiff⟩ := h.first x hA
    refine ⟨q, List.mem_append_left _ hq, hleast, ?_⟩
    rw [hlist q _ (h.lt hq List.mem_cons_self).le]
    exact hiff
  · obtain rfl := List.mem_singleton.mp hlast
    refine ⟨p, List.mem_append_right _ hlast, fun r => h.least_head hk, ?_⟩
    rw [hlist p k le_rfl, ← h.isSome_find_iff hS]
    exact hfound.symm

theorem miss {S : Search κ ν ε} (hS : S.Spec G key knows) {queue : List κ}
    (h : Inv G key knows found s A ((p, k) :: B) L) (hk : k ∉ s.done)
    (hqueue : s.queue = k :: queue) (hfound : (S.find s.known k).isSome ↔ found k)
    (hnone : S.find s.known k = none) :
    Inv G key knows found { s with queue := queue, done := k :: s.done } (A ++ [(p, k)]) B L := by
  refine h.advance hqueue h.done_append (fun hk' => ?_) ?_
  · rw [hnone] at hfound
    exact absurd (hfound.mpr hk') (by simp)
  · have hfirst := h.first_append hS hk hfound (M := []) fun y hy => absurd hy List.not_mem_nil
    rwa [List.append_nil] at hfirst

theorem take {S : Search κ ν ε} (hS : S.Spec G key knows) {queue : List κ} {x : ν} {e : ε}
    (h : Inv G key knows found s A ((p, k) :: B) L) (hk : k ∉ s.done)
    (hqueue : s.queue = k :: queue) (hfound : (S.find s.known k).isSome ↔ found k)
    (hsome : S.find s.known k = some (x, e)) :
    Inv G key knows found ⟨queue ++ S.next x, k :: s.done, e, s.out ++ [x]⟩ (A ++ [(p, k)])
      (B ++ children p (S.next x)) (L ++ [(p, k)]) := by
  obtain ⟨hkey, hknown, hnext⟩ := hS.find h.known hsome
  have hk' : found k := hfound.mp (by rw [hsome]; rfl)
  have hchain : G.Chain found p k := h.chain _ (List.mem_append_right _ List.mem_cons_self)
  have hlists : A ++ [(p, k)] ++ (B ++ children p (S.next x)) =
      A ++ (p, k) :: B ++ children p (S.next x) := by
    rw [List.append_assoc, List.singleton_append, ← List.cons_append, ← List.append_assoc]
  have hmem : ∀ {y}, y ∈ A ++ (p, k) :: B → y ∈ A ++ [(p, k)] ++ (B ++ children p (S.next x)) := by
    intro y hy
    rw [hlists]
    exact List.mem_append_left _ hy
  have hchild : ∀ {y}, y ∈ children p (S.next x) → ∃ i, G.edge k i y.2 ∧ y.1 = p ++ [i] := by
    intro y hy
    obtain ⟨i, hi, hy'⟩ := mem_children.mp hy
    exact ⟨i, (hnext i y.2).mp hi, hy'⟩
  have hold : ∀ {y}, y ∈ A ++ (p, k) :: B → ∀ z ∈ children p (S.next x), place y.1 < place z.1 := by
    intro y hy z hz
    obtain ⟨j, -, hz'⟩ := hchild hz
    rw [hz']
    rcases List.mem_append.mp hy with hA | hB
    · exact (h.lt hA List.mem_cons_self).trans (place_lt_append p j)
    · obtain ⟨q, i, hy', hq⟩ := h.origin y hB
      rw [hy']
      exact place_append_lt (hq _ List.mem_cons_self)
  refine
    { queue := ?_, done := h.done_append, out := ?_, known := ?_, sorted := ?_,
      sublist := h.sublist.append (List.Sublist.refl _), chain := ?_,
      start := fun i k hi => hmem (h.start i k hi), step := ?_, isFound := ?_, least := ?_,
      listed := ?_, origin := ?_,
      first := h.first_append hS hk hfound fun y hy => List.mem_singleton.mp hy }
  · rw [List.map_append, map_snd_children, (List.cons.inj (h.queue.trans hqueue)).2]
  · rw [List.map_append, List.map_append, h.out, List.map_singleton, List.map_singleton, hkey]
  · rw [List.map_append, List.reverse_append, List.map_singleton]
    exact hknown
  · rw [hlists, List.pairwise_append]
    exact ⟨h.sorted, pairwise_children _ _, fun y hy => hold hy⟩
  · rw [hlists]
    intro y hy
    rcases List.mem_append.mp hy with hy | hy
    · exact h.chain y hy
    · obtain ⟨i, hedge, hy'⟩ := hchild hy
      rw [hy']
      exact hchain.step hk' hedge
  · intro y hy i k' hedge
    rcases List.mem_append.mp hy with hL | hlast
    · exact hmem (h.step y hL i k' hedge)
    · obtain rfl := List.mem_singleton.mp hlast
      apply List.mem_append_right
      exact List.mem_append_right _ (mem_children.mpr ⟨i, (hnext i k').mpr hedge, rfl⟩)
  · intro y hy
    rcases List.mem_append.mp hy with hL | hlast
    · exact h.isFound y hL
    · rwa [List.mem_singleton.mp hlast]
  · intro y hy q hq
    rcases List.mem_append.mp hy with hL | hlast
    · exact h.least y hL q hq
    · rw [List.mem_singleton.mp hlast] at hq ⊢
      exact h.least_head hk hq
  · intro y hy hy'
    rcases List.mem_append.mp hy with hA | hlast
    · obtain ⟨q, hq⟩ := h.listed y hA hy'
      exact ⟨q, List.mem_append_left _ hq⟩
    · rw [List.mem_singleton.mp hlast]
      exact ⟨p, List.mem_append_right _ (List.mem_singleton_self _)⟩
  · intro y hy
    rcases List.mem_append.mp hy with hB | hz
    · obtain ⟨q, i, hy', hq⟩ := h.origin y (List.mem_cons_of_mem _ hB)
      refine ⟨q, i, hy', fun z hz => ?_⟩
      rcases List.mem_append.mp hz with hz | hz
      · exact hq z (List.mem_cons_of_mem _ hz)
      · have hhead := hold (List.mem_append_right _ List.mem_cons_self) z hz
        exact (hq _ List.mem_cons_self).trans hhead
    · obtain ⟨i, -, hy'⟩ := hchild hz
      refine ⟨p, i, hy', fun z hz => ?_⟩
      rcases List.mem_append.mp hz with hz | hz
      · exact (List.pairwise_cons.mp (List.pairwise_append.mp h.sorted).2.1).1 z hz
      · exact hold (List.mem_append_right _ List.mem_cons_self) z hz

theorem init {e : ε} (he : knows e []) :
    Inv G key knows found ⟨G.start, [], e, []⟩ [] (children [] G.start) [] where
  queue := map_snd_children [] G.start
  done k := by simp
  out := rfl
  known := he
  sorted := pairwise_children [] G.start
  sublist := List.Sublist.refl []
  chain x hx := by
    obtain ⟨i, hi, hx'⟩ := mem_children.mp hx
    rw [hx']
    exact .start hi
  start i k hi := mem_children.mpr ⟨i, hi, rfl⟩
  step x hx := absurd hx List.not_mem_nil
  isFound x hx := absurd hx List.not_mem_nil
  least x hx := absurd hx List.not_mem_nil
  listed x hx := absurd hx List.not_mem_nil
  origin x hx := by
    obtain ⟨i, -, hx'⟩ := mem_children.mp hx
    refine ⟨[], i, hx', fun y hy => ?_⟩
    obtain ⟨j, -, hy'⟩ := mem_children.mp hy
    rw [hy']
    exact place_lt_append [] j
  first x hx := absurd hx List.not_mem_nil

theorem mem_of_chain (h : Inv G key knows found s A [] L) {q : List ℕ} (hq : G.Chain found q k) :
    ∃ p, (p, k) ∈ A := by
  rcases h.complete hq with ⟨p, hp, -⟩ | ⟨x, hx, -⟩
  · rw [List.append_nil] at hp
    exact ⟨p, hp⟩
  · exact absurd hx List.not_mem_nil

theorem mem_out_iff (h : Inv G key knows found s A B L) :
    k ∈ s.out.map key ↔ ∃ p, (p, k) ∈ L := by
  rw [h.out, List.mem_map]
  constructor
  · rintro ⟨x, hx, rfl⟩
    exact ⟨x.1, hx⟩
  · exact fun ⟨p, hp⟩ => ⟨_, hp, rfl⟩

theorem mem_out_iff_chain (h : Inv G key knows found s A [] L) :
    k ∈ s.out.map key ↔ (∃ p, G.Chain found p k) ∧ found k := by
  rw [h.mem_out_iff]
  constructor
  · rintro ⟨p, hp⟩
    exact ⟨⟨p, h.chain _ (List.mem_append_left _ (h.sublist.subset hp))⟩, h.isFound _ hp⟩
  · rintro ⟨⟨p, hp⟩, hk⟩
    obtain ⟨q, hq⟩ := h.mem_of_chain hp
    exact h.listed _ hq hk

theorem before_iff (h : Inv G key knows found s A B L) {x y : List ℕ × κ} (hx : x ∈ L)
    (hy : y ∈ L) : G.Before found x.2 y.2 ↔ place x.1 < place y.1 := by
  have hchain : ∀ z ∈ L, G.Chain found z.1 z.2 := fun z hz =>
    h.chain z (List.mem_append_left _ (h.sublist.subset hz))
  constructor
  · rintro ⟨q, hq, hbefore⟩
    exact (h.least x hx q hq).trans_lt (hbefore y.1 (hchain y hy))
  · exact fun hlt => ⟨x.1, hchain x hx, fun q hq => hlt.trans_le (h.least y hy q hq)⟩

theorem sorted_list (h : Inv G key knows found s A B L) :
    L.Pairwise fun x y => place x.1 < place y.1 :=
  (List.pairwise_append.mp h.sorted).1.sublist h.sublist

theorem nodup_out (h : Inv G key knows found s A B L) : (s.out.map key).Nodup := by
  rw [h.out, List.Nodup, List.pairwise_map]
  refine h.sorted_list.imp_of_mem ?_
  intro x y hx hy hlt heq
  have hle := h.least y hy x.1
    (heq ▸ h.chain x (List.mem_append_left _ (h.sublist.subset hx)))
  exact absurd hle (not_le.mpr hlt)

/-- Nothing is in the list after what it is related to, if its chain comes before. -/
theorem pairwise_out_iff (h : Inv G key knows found s A B L) {R : κ → κ → Prop}
    (hR : ∀ k ∈ s.out.map key, ¬ R k k) :
    (s.out.Pairwise fun x y => ¬ R (key y) (key x)) ↔
      ∀ k ∈ s.out.map key, ∀ k' ∈ s.out.map key, R k k' → G.Before found k k' := by
  have hmap : (s.out.Pairwise fun x y => ¬ R (key y) (key x)) ↔
      L.Pairwise fun x y => ¬ R y.2 x.2 := by
    rw [← List.pairwise_map (R := fun a b => ¬ R b a), h.out, List.pairwise_map]
  rw [hmap]
  constructor
  · intro hpair k hk k' hk' hrel
    obtain ⟨p, hp⟩ := h.mem_out_iff.mp hk
    obtain ⟨p', hp'⟩ := h.mem_out_iff.mp hk'
    refine (h.before_iff hp hp').mpr ?_
    have hforall : ∀ x ∈ L, ∀ y ∈ L, place x.1 ≤ place y.1 → ¬ R y.2 x.2 := by
      intro x hx y hy
      refine List.Pairwise.forall_of_forall_of_flip (R := fun x y : List ℕ × κ =>
        place x.1 ≤ place y.1 → ¬ R y.2 x.2) ?_ ?_ ?_ hx hy
      · exact fun x hx _ => hR x.2 (h.mem_out_iff.mpr ⟨x.1, hx⟩)
      · exact hpair.imp (fun {x y} hnot (_ : place x.1 ≤ place y.1) => hnot)
      · exact h.sorted_list.imp fun hlt hle => absurd hlt (not_lt.mpr hle)
    by_contra hlt
    exact hforall _ hp' _ hp (not_lt.mp hlt) hrel
  · intro hall
    refine h.sorted_list.imp_of_mem ?_
    intro x y hx hy hlt hrel
    have hbefore := hall y.2 (h.mem_out_iff.mpr ⟨y.1, hy⟩) x.2 (h.mem_out_iff.mpr ⟨x.1, hx⟩) hrel
    exact absurd ((h.before_iff hy hx).mp hbefore) (not_lt.mpr hlt.le)

theorem consistent {S : Search κ ν ε} (hS : S.Spec G key knows)
    (h : Inv G key knows found s A [] L) : G.Consistent found := by
  intro k p hp
  obtain ⟨p', hp'⟩ := h.mem_of_chain hp
  obtain ⟨q, hq, hleast, hfound⟩ := h.first _ hp'
  rw [hfound]
  refine or_congr_right ⟨?_, ?_⟩
  · rintro ⟨y, hy, hlt, hbrings⟩
    exact ⟨y.2, hbrings, y.1, h.chain y (List.mem_append_left _ (h.sublist.subset hy)),
      fun r hr => hlt.trans_le (hleast r hr)⟩
  · rintro ⟨w, hbrings, r, hr, hbefore⟩
    obtain ⟨p₁, hp₁⟩ := h.mem_of_chain hr
    obtain ⟨p₃, -, -, hw⟩ := h.first _ hp₁
    obtain ⟨p₂, hp₂⟩ := h.listed _ hp₁ (hw.mpr (.inl (hS.base hbrings)))
    have hqchain := h.chain _ (List.mem_append_left _ hq)
    exact ⟨(p₂, w), hp₂, (h.least _ hp₂ r hr).trans_lt (hbefore q hqchain), hbrings⟩

end Inv

end

namespace Search

variable [DecidableEq κ] {S : Search κ ν ε} {G : Graph κ} {key : ν → κ}
  {knows : ε → List κ → Prop} {found : κ → Prop} {s s' : State κ ν ε}

theorem round_cases (h : S.round s = .inr s') : ∃ k queue, s.queue = k :: queue ∧
    (k ∈ s.done ∧ s' = { s with queue := queue } ∨
      k ∉ s.done ∧ S.find s.known k = none ∧ s' = { s with queue := queue, done := k :: s.done } ∨
      ∃ x e, k ∉ s.done ∧ S.find s.known k = some (x, e) ∧
        s' = ⟨queue ++ S.next x, k :: s.done, e, s.out ++ [x]⟩) := by
  unfold round at h
  split at h
  · cases h
  · rename_i k queue hqueue
    refine ⟨k, queue, hqueue, ?_⟩
    split at h
    · rename_i hk
      exact .inl ⟨hk, (Sum.inr.inj h).symm⟩
    · rename_i hk
      split at h
      · rename_i hfind
        exact .inr (.inl ⟨hk, hfind, (Sum.inr.inj h).symm⟩)
      · rename_i x e hfind
        exact .inr (.inr ⟨x, e, hk, hfind, (Sum.inr.inj h).symm⟩)

theorem round_eq_inl {out : List ν} (h : S.round s = .inl out) : s.queue = [] ∧ s.out = out := by
  unfold round at h
  split at h
  · rename_i hqueue
    exact ⟨hqueue, Sum.inl.inj h⟩
  · split at h
    · cases h
    · split at h <;> cases h

theorem inv_round (hS : S.Spec G key knows) (h : S.round s = .inr s')
    (hs : ∃ A B L, Inv G key knows found s A B L)
    (hfound : ∀ A B L p k, Inv G key knows found s A ((p, k) :: B) L → k ∉ s.done →
      ((S.find s.known k).isSome ↔ found k)) : ∃ A B L, Inv G key knows found s' A B L := by
  obtain ⟨A, B, L, hinv⟩ := hs
  obtain ⟨k, queue, hqueue, hcases⟩ := round_cases h
  cases B with
  | nil =>
    have hnil := hinv.queue
    rw [hqueue] at hnil
    cases hnil
  | cons x B =>
    obtain ⟨p, k'⟩ := x
    obtain rfl : k' = k := (List.cons.inj (hinv.queue.trans hqueue)).1
    rcases hcases with ⟨hk, rfl⟩ | ⟨hk, hnone, rfl⟩ | ⟨x, e, hk, hsome, rfl⟩
    · exact ⟨_, _, _, hinv.skip hk hqueue⟩
    · exact ⟨_, _, _, hinv.miss hS hk hqueue (hfound _ _ _ _ _ hinv hk) hnone⟩
    · exact ⟨_, _, _, hinv.take hS hk hqueue (hfound _ _ _ _ _ hinv hk) hsome⟩

theorem run_spec (hS : S.Spec G key knows) {e : ε} (he : knows e []) (hfound : G.Consistent found)
    {n : ℕ} {out : List ν} (h : run S.round n ⟨G.start, [], e, []⟩ = some out) :
    (out.map key).Nodup ∧ (∀ k, k ∈ out.map key ↔ (∃ p, G.Chain found p k) ∧ found k) ∧
      ∀ R : κ → κ → Prop, (∀ k ∈ out.map key, ¬ R k k) →
        ((out.Pairwise fun x y => ¬ R (key y) (key x)) ↔
          ∀ k ∈ out.map key, ∀ k' ∈ out.map key, R k k' → G.Before found k k') := by
  obtain ⟨s, ⟨A, B, L, hinv⟩, hs⟩ := run_induction
    (fun s s' hs hround => inv_round hS hround hs fun _ _ _ _ _ hinv hk =>
      hinv.isSome_find_iff_found hS hfound hk) ⟨_, _, _, Inv.init he⟩ h
  obtain ⟨hqueue, rfl⟩ := round_eq_inl hs
  obtain rfl : B = [] := List.map_eq_nil_iff.mp (hinv.queue.trans hqueue)
  exact ⟨hinv.nodup_out, fun k => hinv.mem_out_iff_chain, fun R => hinv.pairwise_out_iff⟩

theorem run_extends (hS : S.Spec G key knows) {n : ℕ} {out : List ν} {ks : List κ}
    (hks : knows s.known ks) (h : run S.round n s = some out) :
    ∃ l, out = s.out ++ l ∧ ∀ x ∈ l, key x ∉ s.done := by
  induction n generalizing s ks with
  | zero => cases h
  | succ n ih =>
    cases hround : S.round s with
    | inl b =>
      rw [run_of_inl hround] at h
      obtain rfl := Option.some.inj h
      obtain ⟨-, rfl⟩ := round_eq_inl hround
      exact ⟨[], (List.append_nil _).symm, fun x hx => absurd hx List.not_mem_nil⟩
    | inr s' =>
      rw [run_of_inr hround] at h
      obtain ⟨k, queue, -, hcases⟩ := round_cases hround
      rcases hcases with ⟨-, rfl⟩ | ⟨-, -, rfl⟩ | ⟨x, e, hk, hsome, rfl⟩
      · exact ih (s := { s with queue := queue }) hks h
      · obtain ⟨l, rfl, hl⟩ := ih (s := { s with queue := queue, done := k :: s.done }) hks h
        exact ⟨l, rfl, fun y hy hdone => hl y hy (List.mem_cons_of_mem _ hdone)⟩
      · obtain ⟨hkey, hknown, -⟩ := hS.find hks hsome
        obtain ⟨l, rfl, hl⟩ := ih hknown h
        refine ⟨x :: l, by rw [List.append_assoc]; rfl, List.forall_mem_cons.mpr ⟨hkey ▸ hk, ?_⟩⟩
        exact fun y hy hdone => hl y hy (List.mem_cons_of_mem _ hdone)

theorem exists_run_search (hS : S.Spec G key knows) {e : ε} (he : knows e []) (height : κ → ℕ)
    (hedge : ∀ k i k', G.edge k i k' → height k' < height k) :
    ∃ n out, run S.round n ⟨G.start, [], e, []⟩ = some out := by
  refine exists_run (I := fun s => ∃ ks, knows s.known ks)
    (r := fun s => Multiset.ofList (s.queue.map height)) ?_ ⟨[], he⟩
  rintro s s' ⟨ks, hks⟩ hround
  obtain ⟨k, queue, hqueue, hcases⟩ := round_cases hround
  rw [hqueue, List.map_cons]
  have hdrop : Multiset.IsDershowitzMannaLT (Multiset.ofList (queue.map height))
      (Multiset.ofList (height k :: queue.map height)) := by
    have hlt := isDershowitzMannaLT_append (a := height k) (l := queue.map height) (m := [])
      fun b hb => absurd hb List.not_mem_nil
    rwa [List.append_nil] at hlt
  rcases hcases with ⟨-, rfl⟩ | ⟨-, -, rfl⟩ | ⟨x, e', -, hsome, rfl⟩
  · exact ⟨⟨ks, hks⟩, hdrop⟩
  · exact ⟨⟨ks, hks⟩, hdrop⟩
  · obtain ⟨-, hknown, hnext⟩ := hS.find hks hsome
    refine ⟨⟨_, hknown⟩, ?_⟩
    rw [List.map_append]
    refine isDershowitzMannaLT_append fun b hb => ?_
    obtain ⟨k', hk', rfl⟩ := List.mem_map.mp hb
    obtain ⟨i, hi⟩ := List.mem_iff_getElem?.mp hk'
    exact hedge k i k' ((hnext i k').mp hi)

theorem isSome_find_iff_mem (hS : S.Spec G key knows) {A B L : List (List ℕ × κ)} {p : List ℕ}
    {k : κ} (hinv : Inv G key knows found s A ((p, k) :: B) L) (hk : k ∉ s.done)
    (hround : S.round s = .inr s') {n : ℕ} {out : List ν} (h : run S.round n s' = some out) :
    (S.find s.known k).isSome ↔ k ∈ out.map key := by
  obtain ⟨k', queue, hqueue, hcases⟩ := round_cases hround
  obtain rfl : k = k' := (List.cons.inj (hinv.queue.trans hqueue)).1
  rcases hcases with ⟨hdone, -⟩ | ⟨-, hnone, rfl⟩ | ⟨x, e, -, hsome, rfl⟩
  · exact absurd hdone hk
  · obtain ⟨l, rfl, hl⟩ := run_extends (s := { s with queue := queue, done := k :: s.done }) hS
      hinv.known h
    rw [hnone, List.map_append, List.mem_append]
    refine iff_of_false (by simp) ?_
    rintro (hout | hmem)
    · obtain ⟨q, hq⟩ := hinv.mem_out_iff.mp hout
      exact hk ((hinv.done k).mpr ⟨q, hinv.sublist.subset hq⟩)
    · obtain ⟨y, hy, rfl⟩ := List.mem_map.mp hmem
      exact hl y hy List.mem_cons_self
  · obtain ⟨hkey, hknown, -⟩ := hS.find hinv.known hsome
    obtain ⟨l, rfl, -⟩ := run_extends hS hknown h
    rw [hsome]
    refine iff_of_true rfl (List.mem_map.mpr ⟨x, ?_, hkey⟩)
    exact List.mem_append_left _ (List.mem_append_right _ (List.mem_singleton_self _))

theorem exists_consistent (hS : S.Spec G key knows) {e : ε} (he : knows e []) {n : ℕ}
    {out : List ν} (h : run S.round n ⟨G.start, [], e, []⟩ = some out) :
    G.Consistent fun k => k ∈ out.map key := by
  have hrun : ∀ n s, run S.round n s = some out →
      (∃ A B L, Inv G key knows (· ∈ out.map key) s A B L) → G.Consistent (· ∈ out.map key) := by
    intro n
    induction n with
    | zero => intro s h; cases h
    | succ n ih =>
      intro s h hs
      cases hround : S.round s with
      | inl b =>
        obtain ⟨A, B, L, hinv⟩ := hs
        obtain ⟨hqueue, -⟩ := round_eq_inl hround
        obtain rfl : B = [] := List.map_eq_nil_iff.mp (hinv.queue.trans hqueue)
        exact hinv.consistent hS
      | inr s' =>
        have h' : run S.round n s' = some out := (run_of_inr hround n).symm.trans h
        refine ih s' h' (inv_round hS hround hs ?_)
        intro A B L p k hinv hk
        exact isSome_find_iff_mem hS hinv hk hround h'
  exact hrun n _ h ⟨_, _, _, Inv.init he⟩

end Search

end WorkQueue
