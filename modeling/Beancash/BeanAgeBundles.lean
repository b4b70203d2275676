import Beancash.SelectByBeanAge

namespace Beancash

/-- The value of a group of coins. -/
def coinsValue (coins : List Coin) : ℤ := (coins.map Coin.nValue).sum

def coinsCost (coins : List Coin) : UInt64 := (coins.map Coin.nCost).sum

@[simp] theorem coinsValue_nil : coinsValue [] = 0 := rfl

@[simp] theorem coinsValue_cons (coin : Coin) (coins : List Coin) :
    coinsValue (coin :: coins) = coin.nValue + coinsValue coins := rfl

@[simp] theorem coinsValue_append (coins coins' : List Coin) :
    coinsValue (coins ++ coins') = coinsValue coins + coinsValue coins' := by
  simp [coinsValue]

/-- The selection with some more coins. -/
def Selection.addCoins (s : Selection) (coins : List Coin) : Selection :=
  { s with
    setBeansRet := s.setBeansRet ∪ (coins.map Coin.bean).toFinset
    nValueRet := s.nValueRet + coinsValue coins }

theorem Selection.addCoins_nil (s : Selection) : s.addCoins [] = s := by
  simp [Selection.addCoins]

theorem Selection.addCoins_append (s : Selection) (coins coins' : List Coin) :
    s.addCoins (coins ++ coins') = (s.addCoins coins).addCoins coins' := by
  simp [Selection.addCoins, Finset.union_assoc, Int.add_assoc]

theorem foldl_insert_bean (coins : List Coin) (setCoinsRet : Finset Bean) :
    coins.foldl (fun setCoinsRet coin => Insert.insert coin.bean setCoinsRet) setCoinsRet =
      setCoinsRet ∪ (coins.map Coin.bean).toFinset := by
  induction coins generalizing setCoinsRet with
  | nil => simp
  | cons coin coins ih =>
    rw [List.foldl_cons, ih]
    ext bean
    simp

/-- The list of values shows the coins in groups: `items`, which can be picked, and `rest`. -/
structure Arranged (b : Bundling) (items : List (List Coin)) (rest : List Coin) : Prop where
  length : b.nTotalCoinValues = items.length
  entry : ∀ (k : ℕ) (item : List Coin), items[k]? = some item →
    ∃ coin : Coin, b.vValue[k]? = some coin ∧
    coin.nValue = coinsValue item ∧ coin.nCost = coinsCost item
  pick : ∀ (k : ℕ) (item : List Coin), items[k]? = some item → ∀ s, b.pick k s = some (s.addCoins item)
  rest : b.vZeroValueBundles.getLast?.elim [] (fun back => b.vValue.drop back) = rest

theorem arranged_single (vValue : List Coin) :
    Arranged (.single vValue) (vValue.map fun coin => [coin]) [] where
  length := (List.length_map _).symm
  entry k item hitem := by
    rw [List.getElem?_map, Option.map_eq_some_iff] at hitem
    obtain ⟨coin, hcoin, rfl⟩ := hitem
    exact ⟨coin, hcoin, (Int.add_zero _).symm, (UInt64.add_zero _).symm⟩
  pick k item hitem s := by
    rw [List.getElem?_map, Option.map_eq_some_iff] at hitem
    obtain ⟨coin, hcoin, rfl⟩ := hitem
    have hk : ¬vValue.length ≤ k := by
      have hlt := (List.getElem?_eq_some_iff.mp hcoin).1
      omega
    simp [Bundling.pick, Bundling.single, hcoin, hk, Selection.addCoins]
  rest := rfl

theorem mapM_getElem? {α : Type} (l : List α) {first n : ℕ} (h : first + n ≤ l.length) :
    (List.range' first n).mapM (fun i => l[i]?) = some ((l.drop first).take n) := by
  induction n generalizing first with
  | zero => simp
  | succ n ih =>
    have hlt : first < l.length := by omega
    rw [List.range'_succ, List.mapM_cons, ih (by omega), List.getElem?_eq_getElem hlt,
      List.drop_eq_getElem_cons hlt, List.take_succ_cons]
    rfl

/-- What an entry of the list of values shows. -/
def Coin.shown (coin : Coin) : ℤ × UInt64 := (coin.nValue, coin.nCost)

/-- What holds in the loop, when some groups of small coins are bundled, `cur` are in the bundle
that is being made, and `todo` are to come. -/
structure Bundled (big : List Coin) (groups : List (List Coin)) (cur todo : List Coin)
    (b : Bundling) : Prop where
  begin : b.nBeginBundles = big.length
  total : b.nTotalCoinValues = big.length + groups.length
  beans : b.vValue.map Coin.bean = (big ++ groups.flatten ++ cur ++ todo).map Coin.bean
  shown : (b.vValue.take (big.length + groups.length)).map Coin.shown =
    big.map Coin.shown ++ groups.map fun group => (coinsValue group, coinsCost group)
  kept : b.vValue.drop (big.length + groups.flatten.length) = cur ++ todo
  bundles : b.vZeroValueBundles =
    (List.range (groups.length + 1)).map fun k => big.length + (groups.take k).flatten.length
  ne_nil : ∀ group ∈ groups, group ≠ []

namespace Bundled

variable {denom : ℤ} {big cur todo : List Coin} {groups : List (List Coin)} {b : Bundling}
  {coin : Coin}

theorem length_vValue (h : Bundled big groups cur todo b) :
    b.vValue.length = big.length + groups.flatten.length + cur.length + todo.length := by
  have hlen := congrArg List.length h.beans
  rwa [List.length_map, List.length_map, List.length_append, List.length_append,
    List.length_append] at hlen

theorem length_groups (h : Bundled big groups cur todo b) :
    groups.length ≤ groups.flatten.length := by
  have hne := h.ne_nil
  clear h
  induction groups with
  | nil => exact Nat.le_refl 0
  | cons group groups ih =>
    have hpos := List.length_pos_of_ne_nil (hne group List.mem_cons_self)
    have hle := ih fun group' hgroup' => hne group' (List.mem_cons_of_mem group hgroup')
    rw [List.flatten_cons, List.length_append, List.length_cons]
    omega

theorem getElem? (h : Bundled big groups cur (coin :: todo) b) :
    b.vValue[big.length + groups.flatten.length + cur.length]? = some coin := by
  rw [← List.getElem?_drop, h.kept]
  simp

theorem extend (h : Bundled big groups cur (coin :: todo) b) :
    Bundled big groups (cur ++ [coin]) todo b where
  begin := h.begin
  total := h.total
  beans := by simpa using h.beans
  shown := h.shown
  kept := by simpa using h.kept
  bundles := h.bundles
  ne_nil := h.ne_nil

theorem close (h : Bundled big groups cur (coin :: todo) b) {entry : Coin}
    (hentry : b.vValue[b.nTotalCoinValues]? = some entry) :
    Bundled big (groups ++ [cur ++ [coin]]) [] todo { b with
      vValue := b.vValue.set b.nTotalCoinValues { entry with
        nValue := coinsValue cur + coin.nValue
        nCost := coinsCost cur + coin.nCost }
      nTotalCoinValues := b.nTotalCoinValues + 1
      vZeroValueBundles := b.vZeroValueBundles ++
        [big.length + groups.flatten.length + cur.length + 1] } where
  begin := h.begin
  total := by simp [h.total, Nat.add_assoc]
  beans := by
    obtain ⟨hlt, hget⟩ := List.getElem?_eq_some_iff.mp hentry
    have hsame : (b.vValue.map Coin.bean).set b.nTotalCoinValues entry.bean =
        b.vValue.map Coin.bean := by
      rw [← hget, ← List.getElem_map Coin.bean (h := by simpa using hlt), List.set_getElem_self]
    rw [List.map_set, hsame, h.beans]
    simp
  shown := by
    have hlt := (List.getElem?_eq_some_iff.mp hentry).1
    have hshown := h.shown
    rw [← h.total] at hshown
    have hlen : big.length + (groups ++ [cur ++ [coin]]).length =
        (b.vValue.take b.nTotalCoinValues).length + 1 := by
      rw [List.length_take, Nat.min_eq_left hlt.le, h.total, List.length_append,
        List.length_singleton, Nat.add_assoc]
    have hcost : coinsCost (cur ++ [coin]) = coinsCost cur + coin.nCost := by
      simp [coinsCost]
    rw [hlen, List.set_eq_take_append_cons_drop, if_pos hlt, List.take_length_add_append,
      List.map_append, hshown]
    simp [Coin.shown, hcost]
  kept := by
    have hle := h.length_groups
    have hdrop := congrArg (List.drop (cur.length + 1)) h.kept
    rw [List.drop_drop] at hdrop
    rw [List.drop_set_of_lt]
    · rw [List.flatten_concat, List.length_append, List.length_append, List.length_singleton,
        ← Nat.add_assoc, hdrop]
      simp
    · rw [h.total, List.flatten_concat, List.length_append, List.length_append,
        List.length_singleton]
      omega
  bundles := by
    have hprefix : ∀ k ∈ List.range (groups.length + 1),
        big.length + ((groups ++ [cur ++ [coin]]).take k).flatten.length =
          big.length + (groups.take k).flatten.length := by
      intro k hk
      rw [List.take_append_of_le_length (Nat.lt_succ_iff.mp (List.mem_range.mp hk))]
    have hlast : (groups ++ [cur ++ [coin]]).take (groups.length + 1) =
        groups ++ [cur ++ [coin]] := List.take_of_length_le (by simp)
    dsimp only
    rw [h.bundles, List.length_append, List.length_singleton, List.range_succ (n := groups.length + 1),
      List.map_append, List.map_congr_left hprefix, List.map_singleton, hlast, List.flatten_concat,
      List.length_append, List.length_append, List.length_singleton, ← Nat.add_assoc,
      ← Nat.add_assoc]
  ne_nil := by
    intro group hgroup
    rcases List.mem_append.mp hgroup with hgroup | hgroup
    · exact h.ne_nil group hgroup
    · rw [List.mem_singleton.mp hgroup]
      simp

/-- The loop bundles what is to come, except what is worth less than the denominator at the end. -/
theorem bundleLoop (h : Bundled big groups cur todo b) (hdenom : 0 < denom)
    (hgroups : ∀ group ∈ groups, denom ≤ coinsValue group) (hcur : coinsValue cur < denom) :
    ∃ b' groups' cur', Beancash.bundleLoop denom todo.length
        (big.length + groups.flatten.length + cur.length) (coinsValue cur, coinsCost cur) b =
          some b' ∧
      Bundled big groups' cur' [] b' ∧
      groups'.flatten ++ cur' = groups.flatten ++ cur ++ todo ∧
      (∀ group ∈ groups', denom ≤ coinsValue group) ∧ coinsValue cur' < denom := by
  induction todo generalizing groups cur b with
  | nil => exact ⟨b, groups, cur, rfl, h, (List.append_nil _).symm, hgroups, hcur⟩
  | cons coin todo ih =>
    have hlt : b.nTotalCoinValues < b.vValue.length := by
      have hle := h.length_groups
      rw [h.total, h.length_vValue, List.length_cons]
      omega
    have hcost : coinsCost (cur ++ [coin]) = coinsCost cur + coin.nCost := by
      simp [coinsCost]
    rw [List.length_cons, Beancash.bundleLoop, h.getElem?]
    simp only [Option.bind_eq_bind, Option.bind_some]
    by_cases hfull : denom ≤ coinsValue cur + coin.nValue
    · rw [if_pos hfull, List.getElem?_eq_getElem hlt, Option.bind_some]
      have hclosed := h.close (List.getElem?_eq_getElem hlt)
      have hgroups' : ∀ group ∈ groups ++ [cur ++ [coin]], denom ≤ coinsValue group := by
        intro group hgroup
        rcases List.mem_append.mp hgroup with hgroup | hgroup
        · exact hgroups group hgroup
        · rw [List.mem_singleton.mp hgroup]
          simpa using hfull
      obtain ⟨b', groups', cur', hloop, hrest⟩ := ih hclosed hgroups' hdenom
      refine ⟨b', groups', cur', ?_, ?_⟩
      · rw [← hloop]
        congr 1
        simp [Nat.add_assoc, -List.length_flatten]
      · simpa using hrest
    · rw [if_neg hfull]
      obtain ⟨b', groups', cur', hloop, hrest⟩ := ih h.extend hgroups (by simpa using hfull)
      refine ⟨b', groups', cur', ?_, ?_⟩
      · rw [← hloop, hcost]
        congr 1
        · simp [Nat.add_assoc]
        · simp
      · simpa using hrest

theorem getElem?_shown (h : Bundled big groups cur todo b) {k : ℕ} {x : ℤ × UInt64}
    (hx : (big.map Coin.shown ++ groups.map fun group => (coinsValue group, coinsCost group))[k]? =
      some x) : ∃ coin, b.vValue[k]? = some coin ∧ coin.shown = x := by
  rw [← h.shown, List.getElem?_map, Option.map_eq_some_iff] at hx
  obtain ⟨coin, hcoin, rfl⟩ := hx
  rw [List.getElem?_take] at hcoin
  split at hcoin
  · exact ⟨coin, hcoin, rfl⟩
  · cases hcoin

/-- The coins between two boundaries are, up to what was written over them, those of a bundle. -/
theorem between (h : Bundled big groups cur todo b) {i : ℕ} {group : List Coin}
    (hi : groups[i]? = some group) : ∃ first last coins,
      b.vZeroValueBundles[i]? = some first ∧ b.vZeroValueBundles[i + 1]? = some last ∧
        b.between first last = some coins ∧ coins.map Coin.bean = group.map Coin.bean := by
  obtain ⟨hlt, hget⟩ := List.getElem?_eq_some_iff.mp hi
  have hsplit : groups = groups.take i ++ group :: groups.drop (i + 1) := by
    rw [← hget, ← List.drop_eq_getElem_cons hlt, List.take_append_drop]
  have hnext : (groups.take (i + 1)).flatten.length =
      (groups.take i).flatten.length + group.length := by
    rw [List.take_succ_eq_append_getElem hlt, List.flatten_concat, List.length_append, hget]
  have hlen := h.length_vValue
  have htotal : groups.flatten.length = (groups.take i).flatten.length + group.length +
      (groups.drop (i + 1)).flatten.length := by
    conv_lhs => rw [hsplit]
    rw [List.flatten_append, List.flatten_cons, List.length_append, List.length_append]
    omega
  refine ⟨big.length + (groups.take i).flatten.length,
    big.length + (groups.take (i + 1)).flatten.length,
    (b.vValue.drop (big.length + (groups.take i).flatten.length)).take
      (big.length + (groups.take (i + 1)).flatten.length -
        (big.length + (groups.take i).flatten.length)), ?_, ?_, ?_, ?_⟩
  · rw [h.bundles, List.getElem?_map, List.getElem?_range (by omega)]
    rfl
  · rw [h.bundles, List.getElem?_map, List.getElem?_range (by omega)]
    rfl
  · rw [Bundling.between, if_pos (by omega)]
    exact mapM_getElem? _ (by omega)
  · have hbeans := h.beans
    rw [List.map_take, List.map_drop, hbeans, ← List.map_drop, ← List.map_take, hnext]
    congr 1
    have hsub : big.length + ((groups.take i).flatten.length + group.length) -
        (big.length + (groups.take i).flatten.length) = group.length := by omega
    have hall : big ++ groups.flatten ++ cur ++ todo = (big ++ (groups.take i).flatten) ++
        (group ++ ((groups.drop (i + 1)).flatten ++ cur ++ todo)) := by
      conv_lhs => rw [hsplit]
      simp [List.flatten_append]
    rw [hsub, hall, ← List.length_append, List.drop_left, List.take_left]

theorem shown_of_getElem? {k : ℕ} {item : List Coin}
    (h : ((big.map fun coin => [coin]) ++ groups)[k]? = some item) :
    (big.map Coin.shown ++ groups.map fun group => (coinsValue group, coinsCost group))[k]? =
      some (coinsValue item, coinsCost item) := by
  have hmap : big.map Coin.shown ++ groups.map (fun group => (coinsValue group, coinsCost group)) =
      ((big.map fun coin => [coin]) ++ groups).map fun item => (coinsValue item, coinsCost item) := by
    simp [Coin.shown, coinsValue, coinsCost]
  rw [hmap, List.getElem?_map, h]
  rfl

theorem arranged (h : Bundled big groups cur [] b) :
    Arranged b ((big.map fun coin => [coin]) ++ groups) cur where
  length := by
    rw [List.length_append, List.length_map]
    exact h.total
  entry k item hitem := by
    obtain ⟨coin, hcoin, hshown⟩ := h.getElem?_shown (shown_of_getElem? hitem)
    exact ⟨coin, hcoin, congrArg Prod.fst hshown, congrArg Prod.snd hshown⟩
  pick k item hitem s := by
    obtain ⟨coin, hcoin, hshown⟩ := h.getElem?_shown (shown_of_getElem? hitem)
    have hvalue : coin.nValue = coinsValue item := congrArg Prod.fst hshown
    unfold Bundling.pick
    rw [hcoin, h.begin]
    simp only [Option.bind_eq_bind, Option.bind_some]
    rcases Nat.lt_or_ge k big.length with hlt | hge
    · rw [List.getElem?_append_left (by simpa using hlt), List.getElem?_map,
        Option.map_eq_some_iff] at hitem
      obtain ⟨own, hown, rfl⟩ := hitem
      have hbeans := congrArg (fun l : List Bean => l[k]?) h.beans
      simp only [List.getElem?_map, hcoin, List.append_assoc, List.getElem?_append_left hlt, hown,
        Option.map_some, Option.some.injEq] at hbeans
      rw [if_neg (Nat.not_le.mpr hlt)]
      simp [Selection.addCoins, hbeans, hvalue]
    · rw [List.getElem?_append_right (by simpa using hge), List.length_map] at hitem
      obtain ⟨first, last, coins, hfirst, hlast, hbetween, hbeans⟩ := h.between hitem
      rw [if_pos hge, hfirst, hlast]
      simp [hbetween, foldl_insert_bean, Selection.addCoins, hbeans, hvalue]
  rest := by
    have hkept := h.kept
    rw [List.append_nil] at hkept
    rw [h.bundles, List.range_succ, List.map_append]
    simpa [-List.length_flatten] using hkept

end Bundled

/-- The approximation shows all coins in groups that are worth the denominator, but for some that
are not even together. -/
theorem arranged_makeBundles {denom : ℤ} (hdenom : 0 < denom) (vValue : List Coin) :
    ∃ b items rest, makeBundles denom vValue = some b ∧ Arranged b items rest ∧
      (items.flatten ++ rest).Perm vValue ∧ (∀ item ∈ items, denom ≤ coinsValue item) ∧
      coinsValue rest < denom := by
  have hstart : Bundled (vValue.filter fun coin => decide (denom ≤ coin.nValue)) [] []
      (vValue.filter fun coin => !decide (denom ≤ coin.nValue)) {
        vValue := vValue.filter (fun coin => decide (denom ≤ coin.nValue)) ++
          vValue.filter fun coin => !decide (denom ≤ coin.nValue)
        nBeginBundles := (vValue.filter fun coin => decide (denom ≤ coin.nValue)).length
        nTotalCoinValues := (vValue.filter fun coin => decide (denom ≤ coin.nValue)).length
        vZeroValueBundles := [(vValue.filter fun coin => decide (denom ≤ coin.nValue)).length] } :=
    ⟨rfl, rfl, by simp, by simp, by simp, by simp, by simp⟩
  have hperm := List.filter_append_perm (fun coin : Coin => decide (denom ≤ coin.nValue)) vValue
  have hlen := hperm.length_eq
  rw [List.length_append] at hlen
  obtain ⟨b, groups, rest, hloop, hbundled, hflatten, hgroups, hrest⟩ :=
    hstart.bundleLoop hdenom (by simp) hdenom
  refine ⟨b, _, rest, ?_, hbundled.arranged, ?_, ?_, hrest⟩
  · unfold makeBundles
    rw [← hloop, ← hlen]
    simp [coinsValue, coinsCost]
  · have hbig : ((vValue.filter fun coin => decide (denom ≤ coin.nValue)).map fun coin =>
        [coin]).flatten = vValue.filter fun coin => decide (denom ≤ coin.nValue) := by
      generalize vValue.filter _ = l
      induction l with
      | nil => rfl
      | cons coin l ih => simp [ih]
    rw [List.flatten_append, hbig, List.append_assoc, hflatten]
    simpa using hperm
  · intro item hitem
    rcases List.mem_append.mp hitem with hitem | hitem
    · obtain ⟨coin, hcoin, rfl⟩ := List.mem_map.mp hitem
      have hle := of_decide_eq_true (List.mem_filter.mp hcoin).2
      simpa [coinsValue] using hle
    · exact hgroups item hitem

end Beancash
