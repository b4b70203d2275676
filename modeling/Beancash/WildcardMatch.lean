import Beancash.ByteText
import Mathlib.Computability.Language

namespace Beancash

/-- The loop of `WildcardMatch`, on what is left of two C strings. Each call and each round takes one
off the fuel; `none` is where it has run out. -/
def wildcardLoop : ℕ → List UInt8 → List UInt8 → Option Bool
  | 0, _, _ => none
  | _ + 1, psz, [] => some psz.isEmpty
  | nFuel + 1, psz, ch :: mask =>
    if ch = 42 then do
      if ← wildcardLoop nFuel psz mask then return true
      match psz with
      | [] => return false
      | _ :: psz => wildcardLoop nFuel psz (ch :: mask)
    else
      match psz with
      | [] => some false
      | c :: psz => if ch = 63 ∨ c = ch then wildcardLoop nFuel psz mask else some false

def wildcardMatch (nFuel : ℕ) (str mask : List UInt8) : Option Bool :=
  wildcardLoop nFuel (cStr str) (cStr mask)

/-- What a character of a mask stands for: `*` for any sequence, `?` for any one character, and
every other one for itself. -/
def symbolLanguage (ch : UInt8) : Language UInt8 :=
  {a | if ch = 42 then True else if ch = 63 then a.length = 1 else a = [ch]}

def maskLanguage (mask : List UInt8) : Language UInt8 := (mask.map symbolLanguage).prod

@[simp] theorem mem_maskLanguage_nil (str : List UInt8) : str ∈ maskLanguage [] ↔ str = [] := by
  simp [maskLanguage, Language.mem_one]

theorem mem_maskLanguage_cons (ch : UInt8) (mask str : List UInt8) :
    str ∈ maskLanguage (ch :: mask) ↔
      ∃ a ∈ symbolLanguage ch, ∃ b ∈ maskLanguage mask, a ++ b = str := by
  rw [maskLanguage, List.map_cons, List.prod_cons, Language.mem_mul]
  rfl

theorem mem_maskLanguage_star (mask str : List UInt8) :
    str ∈ maskLanguage (42 :: mask) ↔
      str ∈ maskLanguage mask ∨ ∃ c rest, str = c :: rest ∧ rest ∈ maskLanguage (42 :: mask) := by
  have hstar : ∀ a, a ∈ symbolLanguage 42 := fun a => trivial
  simp only [mem_maskLanguage_cons]
  constructor
  · rintro ⟨a, -, b, hb, rfl⟩
    cases a with
    | nil => exact Or.inl hb
    | cons c a => exact Or.inr ⟨c, a ++ b, rfl, a, hstar a, b, hb, rfl⟩
  · rintro (h | ⟨c, rest, rfl, a, -, b, hb, rfl⟩)
    · exact ⟨[], hstar [], str, h, rfl⟩
    · exact ⟨c :: a, hstar _, b, hb, rfl⟩

theorem mem_symbolLanguage {ch : UInt8} (hch : ch ≠ 42) (a : List UInt8) :
    a ∈ symbolLanguage ch ↔ ∃ c, a = [c] ∧ (ch = 63 ∨ c = ch) := by
  change (if ch = 42 then True else if ch = 63 then a.length = 1 else a = [ch]) ↔ _
  by_cases hquestion : ch = 63
  · simp [hquestion, List.length_eq_one_iff]
  · simp [hch, hquestion]

theorem nil_notMem_maskLanguage {ch : UInt8} (hch : ch ≠ 42) (mask : List UInt8) :
    [] ∉ maskLanguage (ch :: mask) := by
  rw [mem_maskLanguage_cons]
  rintro ⟨a, ha, b, -, hab⟩
  obtain ⟨c, rfl, -⟩ := (mem_symbolLanguage hch a).mp ha
  simp at hab

theorem cons_mem_maskLanguage {ch : UInt8} (hch : ch ≠ 42) (mask : List UInt8) (c : UInt8)
    (psz : List UInt8) :
    c :: psz ∈ maskLanguage (ch :: mask) ↔ (ch = 63 ∨ c = ch) ∧ psz ∈ maskLanguage mask := by
  rw [mem_maskLanguage_cons]
  constructor
  · rintro ⟨a, ha, b, hb, hab⟩
    obtain ⟨c', rfl, hc⟩ := (mem_symbolLanguage hch a).mp ha
    obtain ⟨rfl, rfl⟩ := List.cons.inj hab
    exact ⟨hc, hb⟩
  · rintro ⟨hc, hpsz⟩
    exact ⟨[c], (mem_symbolLanguage hch _).mpr ⟨c, rfl, hc⟩, psz, hpsz, rfl⟩

/-- The two strings get shorter with each call, so that as much fuel as they are long is enough. -/
theorem wildcardLoop_spec {nFuel : ℕ} {psz mask : List UInt8}
    (hfuel : psz.length + mask.length < nFuel) :
    ∃ found, wildcardLoop nFuel psz mask = some found ∧
      (found = true ↔ psz ∈ maskLanguage mask) := by
  induction nFuel generalizing psz mask with
  | zero => omega
  | succ nFuel ih =>
    cases mask with
    | nil =>
      refine ⟨psz.isEmpty, by rw [wildcardLoop], ?_⟩
      rw [mem_maskLanguage_nil, List.isEmpty_iff]
    | cons ch mask =>
      rw [List.length_cons] at hfuel
      by_cases hch : ch = 42
      · subst hch
        obtain ⟨found, hfirst, hfound⟩ := @ih psz mask (by omega)
        rw [wildcardLoop.eq_def, mem_maskLanguage_star, ← hfound]
        simp only [if_true, hfirst, Option.bind_eq_bind, Option.bind_some]
        cases found with
        | true => exact ⟨true, rfl, by simp⟩
        | false =>
          cases psz with
          | nil => exact ⟨false, rfl, by simp⟩
          | cons c psz =>
            rw [List.length_cons] at hfuel
            obtain ⟨found, hrest, hfound⟩ :=
              @ih psz (42 :: mask) (by rw [List.length_cons]; omega)
            exact ⟨found, hrest, by simp [hfound]⟩
      · rw [wildcardLoop.eq_def]
        simp only [if_neg hch]
        cases psz with
        | nil => exact ⟨false, rfl, by simp [nil_notMem_maskLanguage hch mask]⟩
        | cons c psz =>
          rw [List.length_cons] at hfuel
          simp only [cons_mem_maskLanguage hch]
          by_cases hc : ch = 63 ∨ c = ch
          · obtain ⟨found, hrest, hfound⟩ := @ih psz mask (by omega)
            exact ⟨found, by rw [if_pos hc, hrest], by simp [hc, hfound]⟩
          · exact ⟨false, by rw [if_neg hc], by simp [hc]⟩

/-- The recursion is never deeper than the two strings are long together, and it finds out whether the
string is in the language of the mask. -/
theorem wildcardMatch_iff (str mask : List UInt8) (hstr : ∀ ch ∈ str, ch ≠ 0)
    (hmask : ∀ ch ∈ mask, ch ≠ 0) :
    ∃ found, (∀ nFuel, str.length + mask.length < nFuel →
        wildcardMatch nFuel str mask = some found) ∧
      (found = true ↔ str ∈ maskLanguage mask) := by
  simp only [wildcardMatch, cStr_of_ne_zero hstr, cStr_of_ne_zero hmask]
  obtain ⟨found, -, hfound⟩ := wildcardLoop_spec (Nat.lt_succ_self (str.length + mask.length))
  refine ⟨found, ?_, hfound⟩
  intro nFuel hfuel
  obtain ⟨found', hloop, hfound'⟩ := wildcardLoop_spec hfuel
  rw [hloop, Bool.eq_iff_iff.mpr (hfound'.trans hfound.symm)]

/-- The mask `a*b?` takes `abbc`. -/
theorem wildcardMatch_iff_star : ∃ found, (∀ nFuel, 8 < nFuel →
      wildcardMatch nFuel (bytesOf "abbc") (bytesOf "a*b?") = some found) ∧
    (found = true ↔ bytesOf "abbc" ∈ maskLanguage (bytesOf "a*b?")) :=
  wildcardMatch_iff (bytesOf "abbc") (bytesOf "a*b?") (by simp [bytesOf]) (by simp [bytesOf])

example : wildcardMatch 9 (bytesOf "abbc") (bytesOf "a*b?") = some true := by decide

end Beancash
