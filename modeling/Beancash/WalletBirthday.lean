import Beancash.LoadWallet
import Mathlib.Data.List.Nodup
import Mathlib.Data.List.Perm.Subperm

namespace Beancash

variable {PubKey : Type}

theorem foldl_earlier {times : List ℤ} (hne : times ≠ []) (hzero : ∀ t ∈ times, t ≠ 0) :
    times.foldl earlier 0 ∈ times ∧ ∀ t ∈ times, times.foldl earlier 0 ≤ t := by
  induction times using List.reverseRecOn with
  | nil => exact absurd rfl hne
  | append_singleton times t ih =>
    rw [List.foldl_append, List.foldl_cons, List.foldl_nil]
    by_cases hfirst : times = []
    · subst hfirst
      rw [List.foldl_nil, earlier, if_pos (Or.inl rfl), List.nil_append]
      exact ⟨List.mem_singleton_self t, fun t' ht' => Int.le_of_eq (List.mem_singleton.mp ht').symm⟩
    · obtain ⟨hmem, hle⟩ := ih hfirst fun t' ht' => hzero t' (List.mem_append_left _ ht')
      have hnonzero := hzero _ (List.mem_append_left [t] hmem)
      generalize times.foldl earlier 0 = first at *
      unfold earlier
      constructor
      · split
        · exact List.mem_append_right _ (List.mem_singleton_self t)
        · exact List.mem_append_left _ hmem
      · intro t' ht'
        rcases List.mem_append.mp ht' with ht' | ht'
        · have := hle t' ht'
          split <;> omega
        · rw [List.mem_singleton.mp ht']
          split <;> omega

/-- The times since the last that was 0, the last of them first. -/
def lastTimes (times : List ℤ) : List ℤ := times.reverse.takeWhile (· ≠ 0)

/-- Such times that a rescan starts at the first block. -/
def FromStart (times : List ℤ) : Prop :=
  (∀ t ∈ times, 0 ≤ t) ∧ (lastTimes times = [] ∨ 1 ∈ lastTimes times)

theorem lastTimes_concat (times : List ℤ) (t : ℤ) :
    lastTimes (times ++ [t]) = if t = 0 then [] else t :: lastTimes times := by
  unfold lastTimes
  rw [List.reverse_append, List.reverse_singleton, List.singleton_append, List.takeWhile_cons]
  by_cases ht : t = 0
  · rw [if_pos ht, if_neg (by simpa using ht)]
  · rw [if_neg ht, if_pos (by simpa using ht)]

theorem foldl_earlier_cases (times : List ℤ) :
    ((∃ t ∈ times, t < 0) ∧ times.foldl earlier 0 < 0) ∨
      ((∀ t ∈ times, 0 ≤ t) ∧
        ((lastTimes times = [] ∧ times.foldl earlier 0 = 0) ∨
          (times.foldl earlier 0 ∈ lastTimes times ∧ 0 < times.foldl earlier 0 ∧
            ∀ t ∈ lastTimes times, times.foldl earlier 0 ≤ t))) := by
  induction times using List.reverseRecOn with
  | nil => exact .inr ⟨fun t ht => absurd ht List.not_mem_nil, .inl ⟨rfl, rfl⟩⟩
  | append_singleton times t ih =>
    rw [List.foldl_append, List.foldl_cons, List.foldl_nil, lastTimes_concat]
    generalize times.foldl earlier 0 = first at ih ⊢
    rcases ih with ⟨⟨n, hn, hneg⟩, hfirst⟩ | ⟨hall, hrest⟩
    · left
      refine ⟨⟨n, List.mem_append_left _ hn, hneg⟩, ?_⟩
      unfold earlier
      split <;> omega
    by_cases ht : t < 0
    · left
      refine ⟨⟨t, List.mem_append_right _ (List.mem_singleton_self t), ht⟩, ?_⟩
      have hnonneg : 0 ≤ first := by
        rcases hrest with ⟨-, hzero⟩ | ⟨-, hpos, -⟩ <;> omega
      unfold earlier
      split <;> omega
    right
    constructor
    · intro t' ht'
      rcases List.mem_append.mp ht' with ht' | ht'
      · exact hall t' ht'
      · rw [List.mem_singleton.mp ht']
        omega
    rcases hrest with ⟨hnil, hzero⟩ | ⟨hmem, hpos, hle⟩
    · rw [hnil, earlier, if_pos (Or.inl hzero)]
      by_cases hreset : t = 0
      · rw [if_pos hreset]
        exact .inl ⟨rfl, hreset⟩
      · rw [if_neg hreset]
        refine .inr ⟨List.mem_singleton_self t, by omega, ?_⟩
        intro t' ht'
        exact Int.le_of_eq (List.mem_singleton.mp ht').symm
    · by_cases hreset : t = 0
      · rw [if_pos hreset, earlier, if_pos (Or.inr (by omega))]
        exact .inl ⟨rfl, hreset⟩
      · rw [if_neg hreset]
        right
        unfold earlier
        by_cases hless : first = 0 ∨ t < first
        · rw [if_pos hless]
          refine ⟨List.mem_cons_self, by omega, ?_⟩
          intro t' ht'
          rcases List.mem_cons.mp ht' with rfl | ht'
          · exact Int.le_refl _
          · have := hle t' ht'
            omega
        · rw [if_neg hless]
          refine ⟨List.mem_cons_of_mem _ hmem, hpos, ?_⟩
          intro t' ht'
          rcases List.mem_cons.mp ht' with rfl | ht'
          · omega
          · exact hle t' ht'

theorem foldl_earlier_fromStart (times : List ℤ) :
    (times.foldl earlier 0 = 0 ∨ times.foldl earlier 0 = 1) ↔ FromStart times := by
  unfold FromStart
  rcases foldl_earlier_cases times with ⟨⟨t, ht, hneg⟩, hfirst⟩ | ⟨hall, hrest⟩
  · constructor
    · intro hvalue
      omega
    · intro hstart
      have := hstart.1 t ht
      omega
  rcases hrest with ⟨hnil, hzero⟩ | ⟨hmem, hpos, hle⟩
  · exact ⟨fun _ => ⟨hall, .inl hnil⟩, fun _ => .inl hzero⟩
  · constructor
    · intro hvalue
      have hone : times.foldl earlier 0 = 1 := by omega
      rw [hone] at hmem
      exact ⟨hall, .inr hmem⟩
    · rintro ⟨-, hnil | hone⟩
      · rw [hnil] at hmem
        cases hmem
      · have := hle 1 hone
        right
        omega

def LoadingWallet.keys (w : LoadingWallet PubKey) : List PubKey := w.mapKeys ++ w.mapCryptedKeys

/-- There are keys, and the creation time of each of them is known. -/
def AllKnown (records : List (WalletRecord PubKey)) (keys : List PubKey) : Prop :=
  keys ≠ [] ∧ ∀ pubkey ∈ keys, ∃ t ≠ 0, (pubkey, t) ∈ keymetas records

/-- `t` is the earliest creation time of the keys. -/
def IsBirthday (records : List (WalletRecord PubKey)) (keys : List PubKey) (t : ℤ) : Prop :=
  (∃ pubkey ∈ keys, (pubkey, t) ∈ keymetas records) ∧
    ∀ pubkey ∈ keys, ∀ t', (pubkey, t') ∈ keymetas records → t ≤ t'

/-- The earliest time where all are known, and in any case no later than any key. -/
structure BirthdayRight (records : List (WalletRecord PubKey)) (w : LoadingWallet PubKey) :
    Prop where
  minimum : AllKnown records w.keys → IsBirthday records w.keys w.nTimeFirstKey
  safe : w.nTimeFirstKey = 0 ∨ w.nTimeFirstKey = 1 ∨
    ∀ pubkey ∈ w.keys, ∃ t ≠ 0, (pubkey, t) ∈ keymetas records ∧ w.nTimeFirstKey ≤ t

/-- A database has one record under a key of its own. -/
structure UniqueKeys (records : List (WalletRecord PubKey)) : Prop where
  ckey : (cryptedKeys records).Nodup
  keymeta : ((keymetas records).map Prod.fst).Nodup

/-- Where the encrypted keys are as many as the metadata, the time that was found is used. Elsewhere
it is 1. -/
def BirthdayCondition (records : List (WalletRecord PubKey)) : Prop :=
  let keys := plainKeys records ++ cryptedKeys records
  if (cryptedKeys records).length = (keymetas records).length then
    AllKnown records keys ∨ FromStart ((keymetas records).map Prod.snd)
  else AllKnown records keys → IsBirthday records keys 1

variable {records : List (WalletRecord PubKey)} {w : LoadingWallet PubKey}

theorem mem_cryptedKeys_of_keymeta (hunique : UniqueKeys records)
    (hlength : (cryptedKeys records).length = (keymetas records).length)
    (hknown : ∀ pubkey ∈ cryptedKeys records, ∃ t ≠ 0, (pubkey, t) ∈ keymetas records)
    {pubkey : PubKey} {t : ℤ} (hmem : (pubkey, t) ∈ keymetas records) :
    pubkey ∈ cryptedKeys records ∧ t ≠ 0 := by
  have hsubset : cryptedKeys records ⊆ (keymetas records).map Prod.fst := by
    intro key hkey
    obtain ⟨t', -, ht'⟩ := hknown key hkey
    exact List.mem_map_of_mem ht'
  have hperm : (cryptedKeys records).Perm ((keymetas records).map Prod.fst) := by
    apply (List.subperm_of_subset hunique.ckey hsubset).perm_of_length_le
    exact Nat.le_of_eq ((List.length_map _).trans hlength.symm)
  have hkey : pubkey ∈ cryptedKeys records := hperm.mem_iff.mpr (List.mem_map_of_mem hmem)
  obtain ⟨t', hzero, ht'⟩ := hknown pubkey hkey
  have hsame : (pubkey, t) = (pubkey, t') :=
    List.inj_on_of_nodup_map hunique.keymeta hmem ht' rfl
  rw [(Prod.mk.inj hsame).2]
  exact ⟨hkey, hzero⟩

theorem LoadingWallet.Loaded.keys_eq (h : w.Loaded records) :
    w.keys = plainKeys records ++ cryptedKeys records := by
  rw [keys, h.mapKeys, h.mapCryptedKeys]

theorem isBirthday_of_allKnown (h : w.Loaded records) (hunique : UniqueKeys records)
    (hlength : (cryptedKeys records).length = (keymetas records).length)
    (hknown : AllKnown records w.keys) : IsBirthday records w.keys w.nTimeFirstKey := by
  obtain ⟨hne, hknown⟩ := hknown
  rw [h.keys_eq] at hne hknown ⊢
  have hcrypted : ∀ pubkey ∈ cryptedKeys records, ∃ t ≠ 0, (pubkey, t) ∈ keymetas records :=
    fun pubkey hkey => hknown pubkey (List.mem_append_right _ hkey)
  obtain ⟨key, hkey⟩ := List.exists_mem_of_ne_nil _ hne
  obtain ⟨t, -, ht⟩ := hknown key hkey
  have htimes : (keymetas records).map Prod.snd ≠ [] :=
    List.ne_nil_of_mem (List.mem_map_of_mem ht)
  obtain ⟨hmem, hle⟩ := foldl_earlier htimes (by
    intro t' ht'
    obtain ⟨⟨pubkey, t''⟩, hkeymeta, rfl⟩ := List.mem_map.mp ht'
    exact (mem_cryptedKeys_of_keymeta hunique hlength hcrypted hkeymeta).2)
  rw [← h.nTimeFirstKey] at hmem hle
  constructor
  · obtain ⟨⟨pubkey, first⟩, hkeymeta, hfirst⟩ := List.mem_map.mp hmem
    rw [← hfirst]
    exact ⟨pubkey, List.mem_append_right _
      (mem_cryptedKeys_of_keymeta hunique hlength hcrypted hkeymeta).1, hkeymeta⟩
  · intro pubkey _ t' ht'
    exact hle t' (List.mem_map_of_mem ht')

theorem birthdayRight_of_isBirthday (hknown : AllKnown records w.keys)
    (h : IsBirthday records w.keys w.nTimeFirstKey) : BirthdayRight records w where
  minimum _ := h
  safe := by
    right
    right
    intro pubkey hkey
    obtain ⟨t, hzero, ht⟩ := hknown.2 pubkey hkey
    exact ⟨t, hzero, ht, h.2 pubkey hkey t ht⟩

theorem birthdayRight_iff_of_unknown (hunknown : ¬AllKnown records w.keys) (hne : w.keys ≠ []) :
    BirthdayRight records w ↔ w.nTimeFirstKey = 0 ∨ w.nTimeFirstKey = 1 := by
  constructor
  · intro h
    rcases h.safe with hzero | hone | hall
    · exact .inl hzero
    · exact .inr hone
    · refine absurd ⟨hne, ?_⟩ hunknown
      intro pubkey hkey
      obtain ⟨t, hzero, ht, -⟩ := hall pubkey hkey
      exact ⟨t, hzero, ht⟩
  · intro hvalue
    exact ⟨fun hknown => absurd hknown hunknown, hvalue.elim .inl fun hone => .inr (.inl hone)⟩

theorem loadWallet_birthday_iff [DecidableEq PubKey] {minversion : Option ℤ} {reorder : DBErrors}
    (hunique : UniqueKeys records) (hload : loadWallet minversion reorder records = (.loadOk, w)) :
    BirthdayRight records w ↔ BirthdayCondition records := by
  obtain ⟨loaded, h, rfl⟩ := loadWallet_eq_loadOk hload
  unfold BirthdayCondition
  dsimp only
  rw [h.nKeys, Nat.zero_add, h.nCKeys, h.nKeyMeta, ← h.keys_eq]
  by_cases hlength : (cryptedKeys records).length = (keymetas records).length
  · rw [if_neg (not_not.mpr hlength), if_pos hlength]
    by_cases hknown : AllKnown records loaded.keys
    · have hbirthday := isBirthday_of_allKnown h hunique hlength hknown
      exact ⟨fun _ => .inl hknown, fun _ => birthdayRight_of_isBirthday hknown hbirthday⟩
    · rw [or_iff_right hknown, ← foldl_earlier_fromStart, ← h.nTimeFirstKey]
      by_cases hne : loaded.keys = []
      · -- without keys there are no metadata either
        have hempty : keymetas records = [] := by
          rw [h.keys_eq, List.append_eq_nil_iff] at hne
          rw [hne.2, List.length_nil] at hlength
          exact List.length_eq_zero_iff.mp hlength.symm
        have hzero : loaded.nTimeFirstKey = 0 := by
          rw [h.nTimeFirstKey, hempty]
          rfl
        refine ⟨fun _ => .inl hzero, fun _ => ⟨fun hknown' => absurd hknown' hknown, .inl hzero⟩⟩
      · exact birthdayRight_iff_of_unknown hknown hne
  · rw [if_pos hlength, if_neg hlength]
    constructor
    · intro hright
      exact hright.minimum
    · intro hone
      exact ⟨hone, .inr (.inl rfl)⟩

namespace Sample

/-- Two encrypted keys, one of them before its metadata. -/
def crypted : List (WalletRecord ℕ) :=
  [.ckey 1, .keymeta 1 50, .keymeta 2 30, .ckey 2, .version 1030000]

theorem uniqueKeys_crypted : UniqueKeys crypted := ⟨by decide, by decide⟩

def onePlain : List (WalletRecord ℕ) := [.key 1 true, .keymeta 1 1600000000, .version 1030000]

end Sample

open Sample in
theorem loadWallet_birthday_crypted :
    BirthdayRight crypted (loadWallet none .loadOk crypted).2 ↔ BirthdayCondition crypted :=
  loadWallet_birthday_iff uniqueKeys_crypted (Prod.ext (by decide) rfl)

open Sample in
/-- The only key was created in 2020, and the birthday is 1. -/
theorem loadWallet_loses_birthday : (loadWallet none .loadOk onePlain).1 = .loadOk ∧
    UniqueKeys onePlain ∧ ¬BirthdayRight onePlain (loadWallet none .loadOk onePlain).2 := by
  refine ⟨by decide, ⟨by decide, by decide⟩, ?_⟩
  intro h
  have hknown : AllKnown onePlain (loadWallet none .loadOk onePlain).2.keys := by
    refine ⟨by decide, ?_⟩
    intro pubkey hkey
    rw [show (loadWallet none .loadOk onePlain).2.keys = [1] from rfl, List.mem_singleton] at hkey
    exact ⟨1600000000, by decide, by rw [hkey]; decide⟩
  obtain ⟨pubkey, -, hmem⟩ := (h.minimum hknown).1
  have htime := List.mem_singleton.mp (hmem : (pubkey, (1 : ℤ)) ∈ [(1, 1600000000)])
  exact absurd (Prod.mk.inj htime).2 (by decide)

end Beancash
