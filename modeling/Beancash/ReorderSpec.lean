import Beancash.ReorderTransactions

namespace Beancash

namespace OrderedWallet

/-- The entries that `ReorderTransactions` does not list. -/
def otherEntries (w : OrderedWallet) : List OrderItem :=
  w.acentries.filter fun item => !item.key.inAccount ""

/-- The positions for entries without one. The first that is free is above all the entries before
it, in order of time. -/
def handedOut (w : OrderedWallet) : List ℤ :=
  (numbering (w.txByTime.map OrderItem.nOrderPos)).handedOut

/-- Every transaction has its own hash, every entry its own key in the database, the positions that
are assigned are different, and there is room above them. -/
structure WellFormed (w : OrderedWallet) : Prop where
  keys : (w.items.map OrderItem.key).Nodup
  distinct : ∀ key key' p, w.position key = some p → w.position key' = some p → p ≠ -1 → key = key'
  fits : ∀ item ∈ w.items, max 0 item.nOrderPos + w.items.length < 2 ^ 63 - 1

theorem txByTime_perm (w : OrderedWallet) :
    w.txByTime.Perm (w.mapWallet ++ w.listAccountCreditDebit "") :=
  List.perm_insertionSort _ _

theorem listAccountCreditDebit_default (w : OrderedWallet) :
    w.listAccountCreditDebit "" = w.acentries.filter fun item => item.key.inAccount "" :=
  if_neg (by decide)

theorem mem_items_iff (w : OrderedWallet) (item : OrderItem) :
    item ∈ w.items ↔ item ∈ w.txByTime ∨ item ∈ w.otherEntries := by
  rw [w.txByTime_perm.mem_iff, listAccountCreditDebit_default, items, otherEntries]
  simp only [List.mem_append, List.mem_filter, Bool.not_eq_true']
  cases item.key.inAccount "" <;> simp

theorem nodup_txByTime_keys {w : OrderedWallet} (h : w.WellFormed) :
    (w.txByTime.map OrderItem.key).Nodup := by
  rw [(w.txByTime_perm.map OrderItem.key).nodup_iff, listAccountCreditDebit_default]
  apply List.Nodup.sublist _ h.keys
  exact ((List.filter_sublist).append_left w.mapWallet).map OrderItem.key

theorem position_of_mem {w : OrderedWallet} (h : w.WellFormed) {item : OrderItem}
    (hitem : item ∈ w.items) : w.position item.key = some item.nOrderPos := by
  rw [position]
  cases hfind : w.items.find? fun other => other.key = item.key with
  | none =>
    rw [List.find?_eq_none] at hfind
    exact absurd (decide_eq_true rfl) (hfind item hitem)
  | some other =>
    have hkey : other.key = item.key := by simpa using List.find?_some hfind
    rw [List.inj_on_of_nodup_map h.keys (List.mem_of_find?_eq_some hfind) hitem hkey, Option.map_some]

theorem exists_mem_of_position {w : OrderedWallet} {key : OrderKey} {p : ℤ}
    (h : w.position key = some p) : ∃ item ∈ w.items, item.key = key ∧ item.nOrderPos = p := by
  rw [position, Option.map_eq_some_iff] at h
  obtain ⟨item, hfind, hp⟩ := h
  exact ⟨item, List.mem_of_find?_eq_some hfind, by simpa using List.find?_some hfind, hp⟩

theorem key_notMem_of_other {w : OrderedWallet} (h : w.WellFormed) {item : OrderItem}
    (hitem : item ∈ w.otherEntries) : item.key ∉ w.txByTime.map OrderItem.key := by
  intro hmem
  obtain ⟨other, hother, hkey⟩ := List.mem_map.mp hmem
  have heq : other = item := List.inj_on_of_nodup_map h.keys
    ((w.mem_items_iff other).mpr (.inl hother)) ((w.mem_items_iff item).mpr (.inr hitem)) hkey
  rw [heq, w.txByTime_perm.mem_iff, listAccountCreditDebit_default, List.mem_append] at hother
  obtain ⟨hentry, hnamed⟩ := List.mem_filter.mp hitem
  rcases hother with hother | hother
  · have hkeys := h.keys
    rw [items, List.map_append] at hkeys
    exact List.disjoint_of_nodup_append hkeys (List.mem_map_of_mem hother)
      (List.mem_map_of_mem hentry)
  · rw [(List.mem_filter.mp hother).2] at hnamed
    cases hnamed

end OrderedWallet

/-- What `ReorderTransactions` makes of the positions. -/
structure Renumbered (w w' : OrderedWallet) : Prop where
  old : ∀ item ∈ w.txByTime, item.nOrderPos ≠ -1 →
    w'.position item.key = some (raised w.handedOut item.nOrderPos)
  fresh : ∀ item ∈ w.txByTime, item.nOrderPos = -1 →
    ∃ o ∈ w.handedOut, w'.position item.key = some o
  freshInj : ∀ item ∈ w.txByTime, ∀ item' ∈ w.txByTime, item.nOrderPos = -1 →
    item'.nOrderPos = -1 → w'.position item.key = w'.position item'.key → item.key = item'.key
  handed : ∀ o ∈ w.handedOut, ∃ item ∈ w.txByTime,
    item.nOrderPos = -1 ∧ w'.position item.key = some o
  other : ∀ key, key ∉ w.txByTime.map OrderItem.key → w'.position key = w.position key
  next_le_iff : ∀ x, w'.nOrderPosNext ≤ x ↔
    0 ≤ x ∧ ∀ item ∈ w.txByTime, ∀ pos, w'.position item.key = some pos → pos < x
  next : w'.nOrderPosNext = (numbering (w.txByTime.map OrderItem.nOrderPos)).next

theorem exists_items_of_positions {l : List OrderItem} {a b : List ℤ} {p : ℤ}
    (h : l.map OrderItem.nOrderPos = a ++ p :: b) : ∃ l1 item l2, l = l1 ++ item :: l2 ∧
      l1.map OrderItem.nOrderPos = a ∧ item.nOrderPos = p := by
  obtain ⟨l1, l2, hl, ha, hrest⟩ := List.map_eq_append_iff.mp h
  obtain ⟨item, l2', rfl, hp, -⟩ := List.map_eq_cons_iff.mp hrest
  exact ⟨l1, item, l2', hl, ha, hp⟩

theorem reorderTransactions_renumbered {fWrite : OrderKey → Bool} {w w' : OrderedWallet}
    (hw : w.WellFormed) (h : reorderTransactions fWrite w = (.loadOk, w')) : Renumbered w w' := by
  obtain ⟨hnext, hframe, hplaced⟩ := reorderLoop_ok (a := []) h rfl
    (OrderedWallet.nodup_txByTime_keys hw) (by
      intro item hitem
      exact OrderedWallet.position_of_mem hw ((w.mem_items_iff item).mpr (.inl hitem)))
  rw [List.nil_append] at hnext
  -- an entry in its place, and the positions before it
  have hat : ∀ item ∈ w.txByTime, ∃ b c, w.txByTime = b ++ item :: c ∧
      w'.position item.key =
        some ((numbering (b.map OrderItem.nOrderPos)).place item.nOrderPos) ∧
      w.txByTime.map OrderItem.nOrderPos =
        b.map OrderItem.nOrderPos ++ item.nOrderPos :: c.map OrderItem.nOrderPos := by
    intro item hitem
    obtain ⟨b, c, hbc⟩ := List.append_of_mem hitem
    exact ⟨b, c, hbc, hplaced b item c hbc, by rw [hbc, List.map_append, List.map_cons]⟩
  refine ⟨?_, ?_, ?_, ?_, ?_, ?_, hnext⟩
  · intro item hitem hp
    obtain ⟨b, c, -, hpos, hmap⟩ := hat item hitem
    rw [hpos, place_eq_raised _ hp (c.map OrderItem.nOrderPos), ← hmap]
    rfl
  · intro item hitem hp
    obtain ⟨b, c, -, hpos, hmap⟩ := hat item hitem
    rw [hp] at hpos hmap
    exact ⟨_, (mem_handedOut_iff _ _).mpr ⟨_, _, hmap, rfl⟩, hpos⟩
  · intro item hitem item' hitem' hp hp' heq
    obtain ⟨b, c, hbc, hpos, hmap⟩ := hat item hitem
    obtain ⟨b', c', hbc', hpos', hmap'⟩ := hat item' hitem'
    rw [hp] at hpos hmap
    rw [hp'] at hpos' hmap'
    rw [hpos, hpos'] at heq
    have hprefix := next_inj (hmap.symm.trans hmap') (Option.some.inj heq)
    have hlength : b.length = b'.length := by
      rw [← List.length_map OrderItem.nOrderPos, hprefix, List.length_map]
    have hsame := (List.append_inj (hbc.symm.trans hbc') hlength).2
    rw [(List.cons.inj hsame).1]
  · intro o ho
    obtain ⟨a, b, hab, rfl⟩ := (mem_handedOut_iff _ _).mp ho
    obtain ⟨l1, item, l2, hl, rfl, hp⟩ := exists_items_of_positions hab
    have hpos := hplaced l1 item l2 hl
    rw [hp] at hpos
    exact ⟨item, hl ▸ List.mem_append_right l1 List.mem_cons_self, hp, hpos⟩
  · exact hframe
  · intro x
    rw [hnext, next_le_iff]
    refine and_congr_right fun _ => ?_
    constructor
    · intro hall item hitem pos hpos
      obtain ⟨b, c, -, hpos', hmap⟩ := hat item hitem
      rw [hpos'] at hpos
      rw [← Option.some.inj hpos]
      exact hall _ _ _ hmap
    · intro hall a p b hab
      obtain ⟨l1, item, l2, hl, rfl, rfl⟩ := exists_items_of_positions hab
      exact hall item (hl ▸ List.mem_append_right l1 List.mem_cons_self) _ (hplaced l1 item l2 hl)

/-- Every position is assigned, no two are the same, those that were there keep their order, and
the next is above all. -/
structure Ordered (w w' : OrderedWallet) : Prop where
  assigned : ∀ key pos, w'.position key = some pos → pos ≠ -1
  distinct : ∀ key key' pos, w'.position key = some pos → w'.position key' = some pos → key = key'
  kept : ∀ key key' p q p' q', w.position key = some p → w.position key' = some q → p ≠ -1 →
    q ≠ -1 → p < q → w'.position key = some p' → w'.position key' = some q' → p' < q'
  next : ∀ key pos, w'.position key = some pos → pos < w'.nOrderPosNext

/-- No position is raised onto one that is handed out. Entries of accounts with a name have
positions that are not handed out, not above all others, and not passed by one that is raised. -/
structure ReorderCondition (w : OrderedWallet) : Prop where
  raised_notMem : ∀ item ∈ w.txByTime, item.nOrderPos ≠ -1 →
    raised w.handedOut item.nOrderPos ∉ w.handedOut
  assigned : ∀ other ∈ w.otherEntries, other.nOrderPos ≠ -1
  notMem : ∀ other ∈ w.otherEntries, other.nOrderPos ∉ w.handedOut
  raised_lt : ∀ other ∈ w.otherEntries, ∀ item ∈ w.txByTime, item.nOrderPos ≠ -1 →
    item.nOrderPos < other.nOrderPos → raised w.handedOut item.nOrderPos < other.nOrderPos
  below : ∀ other ∈ w.otherEntries, 0 ≤ other.nOrderPos →
    (∃ item ∈ w.txByTime, other.nOrderPos < item.nOrderPos) ∨
      ∃ o ∈ w.handedOut, other.nOrderPos < o

variable {w w' : OrderedWallet}

/-- The three kinds of entries, with what becomes of their positions. -/
inductive Placed (w : OrderedWallet) (key : OrderKey) (p pos : ℤ) : Prop
  | old (item : OrderItem) (hitem : item ∈ w.txByTime) (hkey : key = item.key)
      (hp : p = item.nOrderPos) (hassigned : p ≠ -1) (hpos : pos = raised w.handedOut p)
  | fresh (item : OrderItem) (hitem : item ∈ w.txByTime) (hkey : key = item.key)
      (hitemPos : item.nOrderPos = -1) (hp : p = -1) (hpos : pos ∈ w.handedOut)
  | other (item : OrderItem) (hitem : item ∈ w.otherEntries) (hkey : key = item.key)
      (hp : p = item.nOrderPos) (hpos : pos = p)

theorem Renumbered.placed (h : Renumbered w w') (hw : w.WellFormed) {key : OrderKey} {pos : ℤ}
    (hpos : w'.position key = some pos) : ∃ p, w.position key = some p ∧ Placed w key p pos := by
  by_cases hmem : key ∈ w.txByTime.map OrderItem.key
  · obtain ⟨item, hitem, rfl⟩ := List.mem_map.mp hmem
    refine ⟨item.nOrderPos, OrderedWallet.position_of_mem hw ((w.mem_items_iff item).mpr (.inl hitem)),
      ?_⟩
    by_cases hp : item.nOrderPos = -1
    · obtain ⟨o, ho, hpos'⟩ := h.fresh item hitem hp
      rw [hpos', Option.some.injEq] at hpos
      exact .fresh item hitem rfl hp hp (hpos ▸ ho)
    · rw [h.old item hitem hp, Option.some.injEq] at hpos
      exact .old item hitem rfl rfl hp hpos.symm
  · rw [h.other key hmem] at hpos
    obtain ⟨item, hitem, rfl, rfl⟩ := OrderedWallet.exists_mem_of_position hpos
    refine ⟨item.nOrderPos, hpos, ?_⟩
    rcases (w.mem_items_iff item).mp hitem with hitem | hitem
    · exact absurd (List.mem_map_of_mem hitem) hmem
    · exact .other item hitem rfl rfl rfl

theorem Renumbered.position_of_other (h : Renumbered w w') (hw : w.WellFormed)
    {other : OrderItem} (hother : other ∈ w.otherEntries) :
    w.position other.key = some other.nOrderPos ∧
      w'.position other.key = some other.nOrderPos := by
  have hpos := OrderedWallet.position_of_mem hw ((w.mem_items_iff other).mpr (.inr hother))
  exact ⟨hpos, by rw [h.other _ (OrderedWallet.key_notMem_of_other hw hother), hpos]⟩

theorem ReorderCondition.of_ordered (h : Renumbered w w') (hw : w.WellFormed)
    (hordered : Ordered w w') : ReorderCondition w := by
  have hat : ∀ item ∈ w.txByTime, w.position item.key = some item.nOrderPos := by
    intro item hitem
    exact OrderedWallet.position_of_mem hw ((w.mem_items_iff item).mpr (.inl hitem))
  have hnotMem : ∀ other ∈ w.otherEntries, other.nOrderPos ∉ w.handedOut := by
    intro other hother ho
    obtain ⟨item, hitem, -, hpos⟩ := h.handed _ ho
    have hkey := hordered.distinct _ _ _ hpos (h.position_of_other hw hother).2
    apply OrderedWallet.key_notMem_of_other hw hother
    rw [← hkey]
    exact List.mem_map_of_mem hitem
  have hlt : ∀ other ∈ w.otherEntries, ∀ item ∈ w.txByTime, item.nOrderPos ≠ -1 →
      item.nOrderPos < other.nOrderPos → raised w.handedOut item.nOrderPos < other.nOrderPos := by
    intro other hother item hitem hp hless
    obtain ⟨hbefore, hafter⟩ := h.position_of_other hw hother
    have hassigned := hordered.assigned _ _ hafter
    exact hordered.kept _ _ _ _ _ _ (hat item hitem) hbefore hp hassigned hless
      (h.old item hitem hp) hafter
  refine ⟨?_, ?_, hnotMem, hlt, ?_⟩
  · intro item hitem hp ho
    obtain ⟨item', hitem', hp', hpos'⟩ := h.handed _ ho
    have hkey := hordered.distinct _ _ _ (h.old item hitem hp) hpos'
    have hsame := hat item hitem
    rw [hkey, hat item' hitem', Option.some.injEq] at hsame
    exact hp (hsame.symm.trans hp')
  · intro other hother
    exact hordered.assigned _ _ (h.position_of_other hw hother).2
  · intro other hother hzero
    obtain ⟨hbefore, hafter⟩ := h.position_of_other hw hother
    by_contra hnone
    rw [not_or, not_exists, not_exists] at hnone
    have hle : w'.nOrderPosNext ≤ other.nOrderPos := by
      rw [h.next_le_iff]
      refine ⟨hzero, ?_⟩
      intro item hitem pos hpos
      by_cases hp : item.nOrderPos = -1
      · obtain ⟨o, ho, hpos'⟩ := h.fresh item hitem hp
        rw [hpos', Option.some.injEq] at hpos
        have hnot := hnone.2 o
        have hne : o ≠ other.nOrderPos := fun heq => hnotMem other hother (heq ▸ ho)
        rw [not_and] at hnot
        have := hnot ho
        omega
      · rw [h.old item hitem hp, Option.some.injEq] at hpos
        have hnot := hnone.1 item
        rw [not_and] at hnot
        have hge := hnot hitem
        have hne : item.nOrderPos ≠ other.nOrderPos := by
          intro heq
          have hkey := hw.distinct _ _ _ (hat item hitem) (heq ▸ hbefore) hp
          apply OrderedWallet.key_notMem_of_other hw hother
          rw [← hkey]
          exact List.mem_map_of_mem hitem
        have := hlt other hother item hitem hp (by omega)
        omega
    have := hordered.next _ _ hafter
    omega

theorem raised_ne_neg_one {p : ℤ} (hp : p ≠ -1) : raised w.handedOut p ≠ -1 := by
  by_cases hneg : p < 0
  · have hcount : w.handedOut.countP (· ≤ p) = 0 := by
      rw [List.countP_eq_zero]
      intro o ho
      have := handedOut_nonneg ho
      rw [decide_eq_true_iff]
      omega
    rw [raised, hcount]
    omega
  · have := le_raised w.handedOut p
    omega

theorem Placed.pos_ne {key : OrderKey} {p pos : ℤ} (hcond : ReorderCondition w)
    (h : Placed w key p pos) : pos ≠ -1 := by
  cases h with
  | old item _ _ _ hassigned hpos =>
    rw [hpos]
    exact raised_ne_neg_one hassigned
  | fresh item _ _ _ _ hpos =>
    have := handedOut_nonneg hpos
    omega
  | other item hitem _ hp hpos =>
    rw [hpos, hp]
    exact hcond.assigned item hitem

theorem Placed.lt {key key' : OrderKey} {p q pos pos' : ℤ} (hcond : ReorderCondition w)
    (h : Placed w key p pos) (h' : Placed w key' q pos') (hp : p ≠ -1) (hq : q ≠ -1)
    (hlt : p < q) : pos < pos' := by
  cases h with
  | old item hitem _ hitemPos _ hpos =>
    cases h' with
    | old item' _ _ _ _ hpos' =>
      rw [hpos, hpos']
      exact raised_strictMono _ hlt
    | fresh item' _ _ _ hp' _ => exact absurd hp' hq
    | other item' hitem' _ hitemPos' hpos' =>
      rw [hitemPos] at hp hlt hpos
      rw [hitemPos'] at hlt hpos'
      rw [hpos, hpos']
      exact hcond.raised_lt item' hitem' item hitem hp hlt
  | fresh item _ _ _ hp' _ => exact absurd hp' hp
  | other item _ _ _ hpos =>
    cases h' with
    | old item' _ _ _ _ hpos' =>
      rw [hpos, hpos']
      exact lt_of_lt_of_le hlt (le_raised _ _)
    | fresh item' _ _ _ hp' _ => exact absurd hp' hq
    | other item' _ _ _ hpos' => rw [hpos, hpos']; exact hlt

theorem Placed.notMem {key : OrderKey} {p pos : ℤ} (hcond : ReorderCondition w)
    (h : Placed w key p pos) (hp : p ≠ -1) : pos ∉ w.handedOut := by
  cases h with
  | old item hitem _ hitemPos _ hpos =>
    subst hpos
    rw [hitemPos] at hp ⊢
    exact hcond.raised_notMem item hitem hp
  | fresh item _ _ _ hp' _ => exact absurd hp' hp
  | other item hitem _ hitemPos hpos =>
    rw [hpos, hitemPos]
    exact hcond.notMem item hitem

theorem Placed.mem_of_fresh {key : OrderKey} {p pos : ℤ} (h : Placed w key p pos)
    (hcond : ReorderCondition w) (hp : p = -1) :
    pos ∈ w.handedOut ∧ ∃ item ∈ w.txByTime, key = item.key ∧ item.nOrderPos = -1 := by
  cases h with
  | old item _ _ _ hassigned _ => exact absurd hp hassigned
  | fresh item hitem hkey hitemPos _ hpos => exact ⟨hpos, item, hitem, hkey, hitemPos⟩
  | other item hitem _ hitemPos _ => exact absurd (hitemPos.symm.trans hp) (hcond.assigned item hitem)

theorem Ordered.of_condition (h : Renumbered w w') (hw : w.WellFormed)
    (hcond : ReorderCondition w) : Ordered w w' := by
  refine ⟨?_, ?_, ?_, ?_⟩
  · intro key pos hpos
    obtain ⟨p, -, hplaced⟩ := h.placed hw hpos
    exact hplaced.pos_ne hcond
  · intro key key' pos hpos hpos'
    obtain ⟨p, hbefore, hplaced⟩ := h.placed hw hpos
    obtain ⟨q, hbefore', hplaced'⟩ := h.placed hw hpos'
    by_cases hp : p = -1
    · obtain ⟨hmem, item, hitem, rfl, hitemPos⟩ := hplaced.mem_of_fresh hcond hp
      by_cases hq : q = -1
      · obtain ⟨-, item', hitem', rfl, hitemPos'⟩ := hplaced'.mem_of_fresh hcond hq
        exact h.freshInj item hitem item' hitem' hitemPos hitemPos' (hpos.trans hpos'.symm)
      · exact absurd hmem (hplaced'.notMem hcond hq)
    · by_cases hq : q = -1
      · exact absurd (hplaced'.mem_of_fresh hcond hq).1 (hplaced.notMem hcond hp)
      · rcases lt_trichotomy p q with hlt | rfl | hlt
        · exact absurd (hplaced.lt hcond hplaced' hp hq hlt) (lt_irrefl _)
        · exact hw.distinct key key' p hbefore hbefore' hp
        · exact absurd (hplaced'.lt hcond hplaced hq hp hlt) (lt_irrefl _)
  · intro key key' p q p' q' hbefore hbefore' hp hq hlt hpos hpos'
    obtain ⟨p1, hp1, hplaced⟩ := h.placed hw hpos
    obtain ⟨q1, hq1, hplaced'⟩ := h.placed hw hpos'
    rw [hbefore, Option.some.injEq] at hp1
    rw [hbefore', Option.some.injEq] at hq1
    subst hp1 hq1
    exact hplaced.lt hcond hplaced' hp hq hlt
  · intro key pos hpos
    have hnext := (h.next_le_iff w'.nOrderPosNext).mp le_rfl
    obtain ⟨p, hbefore, hplaced⟩ := h.placed hw hpos
    cases hplaced with
    | old item hitem hkey _ _ _ => exact hnext.2 item hitem pos (hkey ▸ hpos)
    | fresh item hitem hkey _ _ _ => exact hnext.2 item hitem pos (hkey ▸ hpos)
    | other item hitem _ hp hpos' =>
      by_contra hle
      have hzero : 0 ≤ item.nOrderPos := by omega
      rcases hcond.below item hitem hzero with ⟨above, habove, hlt⟩ | ⟨o, ho, hlt⟩
      · have hraised := hnext.2 above habove _ (h.old above habove (by omega))
        have := le_raised w.handedOut above.nOrderPos
        omega
      · obtain ⟨given, hgiven, -, hgivenPos⟩ := h.handed o ho
        have := hnext.2 given hgiven o hgivenPos
        omega

theorem Renumbered.next_lt (h : Renumbered w w') (hw : w.WellFormed) :
    w'.nOrderPosNext < 2 ^ 63 := by
  have hlength : w.txByTime.length ≤ w.items.length := by
    rw [w.txByTime_perm.length_eq, OrderedWallet.listAccountCreditDebit_default, OrderedWallet.items,
      List.length_append, List.length_append]
    exact Nat.add_le_add_left (List.length_filter_le _ _) _
  rw [h.next]
  by_cases hnil : w.txByTime = []
  · rw [hnil]
    decide
  · obtain ⟨first, hfirst⟩ := List.exists_mem_of_ne_nil _ hnil
    have hmem := fun item hitem => (w.mem_items_iff item).mpr (.inl hitem)
    have hroom := hw.fits first (hmem first hfirst)
    have hnext := @next_le_add_length (w.txByTime.map OrderItem.nOrderPos)
      (2 ^ 63 - 1 - w.items.length) (by omega) fun p hp => by
        obtain ⟨item, hitem, rfl⟩ := List.mem_map.mp hp
        have hbelow := hw.fits item (hmem item hitem)
        omega
    rw [List.length_map] at hnext
    omega

theorem reorderTransactions_ordered_iff {fWrite : OrderKey → Bool} (hw : w.WellFormed)
    (h : reorderTransactions fWrite w = (.loadOk, w')) :
    (Ordered w w' ↔ ReorderCondition w) ∧ w'.nOrderPosNext < 2 ^ 63 := by
  have hrenumbered := reorderTransactions_renumbered hw h
  exact ⟨⟨ReorderCondition.of_ordered hrenumbered hw, Ordered.of_condition hrenumbered hw⟩,
    hrenumbered.next_lt hw⟩

namespace Sample

def orderTx (hash : ℕ) (nTime nOrderPos : ℤ) : OrderItem := ⟨.tx hash, nTime, nOrderPos⟩

/-- A new transaction between two that have positions, and an entry of the default account. -/
def ordered : OrderedWallet where
  mapWallet := [orderTx 1 10 0, orderTx 2 30 1, orderTx 3 20 (-1)]
  acentries := [⟨.acentry "" 1, 40, 2⟩]
  nOrderPosNext := 3

def alternating : OrderedWallet where
  mapWallet := [orderTx 1 10 0, orderTx 2 20 (-1), orderTx 3 30 1, orderTx 4 40 (-1),
    orderTx 5 50 2]
  acentries := []
  nOrderPosNext := 3

theorem wellFormed_of_nodup {w : OrderedWallet} (hkeys : (w.items.map OrderItem.key).Nodup)
    (hdistinct : ∀ item ∈ w.items, ∀ item' ∈ w.items,
      item.nOrderPos = item'.nOrderPos → item.nOrderPos ≠ -1 → item.key = item'.key)
    (hfits : ∀ item ∈ w.items, max 0 item.nOrderPos + w.items.length < 2 ^ 63 - 1) :
    w.WellFormed where
  keys := hkeys
  distinct := by
    intro key key' p hp hp' hne
    obtain ⟨item, hitem, rfl, rfl⟩ := OrderedWallet.exists_mem_of_position hp
    obtain ⟨item', hitem', rfl, hsame⟩ := OrderedWallet.exists_mem_of_position hp'
    exact hdistinct item hitem item' hitem' hsame.symm hne
  fits := hfits

theorem wellFormed_ordered : ordered.WellFormed :=
  wellFormed_of_nodup (by decide) (by decide) (by decide)

end Sample

open Sample in
theorem reorderTransactions_ordered_sample :
    Ordered ordered (reorderTransactions (fun _ => true) ordered).2 ↔ ReorderCondition ordered :=
  (reorderTransactions_ordered_iff wellFormed_ordered (Prod.ext (by decide) rfl)).1

open Sample in
/-- The fourth transaction and the fifth both get position 3. -/
theorem reorderTransactions_collides : alternating.WellFormed ∧
    (reorderTransactions (fun _ => true) alternating).1 = .loadOk ∧
    ¬Ordered alternating (reorderTransactions (fun _ => true) alternating).2 := by
  refine ⟨wellFormed_of_nodup (by decide) (by decide) (by decide), by decide, ?_⟩
  intro h
  have hsame := h.distinct (.tx 4) (.tx 5) 3 (by decide) (by decide)
  exact absurd hsame (by decide)

end Beancash
