import Beancash.Transaction
import Mathlib.Data.List.AList

namespace Beancash

/-- The largest `int` -/
def maxInt : ℤ := 2147483647

/-- `CAlert`, of the fields of `CUnsignedAlert` those that decide what becomes of it. -/
structure Alert where
  nExpiration : ℤ
  nID : ℤ
  nCancel : ℤ
  setCancel : List ℤ
  nMinVer : ℤ
  nMaxVer : ℤ
  setSubVer : List String
  nPriority : ℤ
  strStatusBar : String
  vchMsg : List UInt8
deriving DecidableEq

abbrev MapAlerts := AList fun _ : Uint256 => Alert

namespace Alert

/-- `IsInEffect` at an adjusted time. -/
def isInEffect (nAdjustedTime : ℤ) (a : Alert) : Bool := decide (nAdjustedTime < a.nExpiration)

def cancels (nAdjustedTime : ℤ) (a alert : Alert) : Bool :=
  if !a.isInEffect nAdjustedTime then false
  else decide (alert.nID ≤ a.nCancel) || decide (alert.nID ∈ a.setCancel)

/-- An alert with the reserved ID has the one message that is defined for it. -/
def isKeyCompromise (a : Alert) : Bool :=
  decide (a.nExpiration = maxInt) && decide (a.nCancel = maxInt - 1) && decide (a.nMinVer = 0) &&
    decide (a.nMaxVer = maxInt) && a.setSubVer.isEmpty && decide (a.nPriority = maxInt) &&
    decide (a.strStatusBar = "URGENT: Alert key compromised, upgrade required")

/-- What is asked of an alert before the other alerts are looked at; `fSigned` is what
`CheckSignature` answers. -/
def passesChecks (nAdjustedTime : ℤ) (fSigned : Bool) (a : Alert) : Bool :=
  fSigned && a.isInEffect nAdjustedTime && (decide (a.nID ≠ maxInt) || a.isKeyCompromise)

end Alert

/-- The alerts that are left when a new one cancels previous ones and expired ones go. -/
def MapAlerts.cancelPrevious (nAdjustedTime : ℤ) (a : Alert) (mapAlerts : MapAlerts) : MapAlerts where
  entries := mapAlerts.entries.filter fun item =>
    !a.cancels nAdjustedTime item.2 && item.2.isInEffect nAdjustedTime
  nodupKeys := mapAlerts.nodupKeys.sublist List.filter_sublist

/-- `ProcessAlert`; `hash` is `Hash` of the message. -/
def processAlert (hash : List UInt8 → Uint256) (nAdjustedTime : ℤ) (fSigned : Bool) (a : Alert)
    (mapAlerts : MapAlerts) : Bool × MapAlerts :=
  if !a.passesChecks nAdjustedTime fSigned then (false, mapAlerts)
  else
    let mapAlerts := mapAlerts.cancelPrevious nAdjustedTime a
    -- check if this alert has been cancelled
    if mapAlerts.entries.any fun item => item.2.cancels nAdjustedTime a then (false, mapAlerts)
    -- `map::insert` leaves an alert with the same hash as it is
    else if hash a.vchMsg ∈ mapAlerts then (true, mapAlerts)
    else (true, mapAlerts.insert (hash a.vchMsg) a)

section Process

variable {hash : List UInt8 → Uint256} {nAdjustedTime : ℤ} {fSigned : Bool} {a : Alert}
  {mapAlerts : MapAlerts}

theorem lookup_cancelPrevious {h : Uint256} {alert : Alert} :
    (mapAlerts.cancelPrevious nAdjustedTime a).lookup h = some alert ↔
      mapAlerts.lookup h = some alert ∧ a.cancels nAdjustedTime alert = false ∧
        alert.isInEffect nAdjustedTime = true := by
  rw [← Option.mem_def, ← Option.mem_def, AList.mem_lookup_iff, AList.mem_lookup_iff,
    MapAlerts.cancelPrevious, List.mem_filter, Bool.and_eq_true, Bool.not_eq_true']

theorem lookup_processAlert {h : Uint256} {alert : Alert}
    (hstored : mapAlerts.lookup h = some alert)
    (hkept : a.passesChecks nAdjustedTime fSigned = true →
      a.cancels nAdjustedTime alert = false ∧ alert.isInEffect nAdjustedTime = true) :
    (processAlert hash nAdjustedTime fSigned a mapAlerts).2.lookup h = some alert := by
  unfold processAlert
  cases hchecks : a.passesChecks nAdjustedTime fSigned with
  | false => exact hstored
  | true =>
    have hleft := lookup_cancelPrevious.mpr ⟨hstored, hkept hchecks⟩
    simp only [Bool.not_true, Bool.false_eq_true, if_false]
    split
    · exact hleft
    · split
      · exact hleft
      · rename_i hnot
        rw [AList.lookup_insert_ne]
        · exact hleft
        · rintro rfl
          exact hnot (AList.lookup_isSome.mp (by rw [hleft]; rfl))

theorem processAlert_eq_of_cancelled (hchecks : a.passesChecks nAdjustedTime fSigned = true) :
    (processAlert hash nAdjustedTime fSigned a mapAlerts).1 = true ∨
      (processAlert hash nAdjustedTime fSigned a mapAlerts).2 =
        mapAlerts.cancelPrevious nAdjustedTime a := by
  unfold processAlert
  rw [hchecks]
  simp only [Bool.not_true, Bool.false_eq_true, if_false]
  split
  · exact Or.inr rfl
  · left
    split <;> rfl

theorem any_cancelPrevious {h : Uint256} {alert : Alert}
    (hstored : (mapAlerts.cancelPrevious nAdjustedTime a).lookup h = some alert)
    (hcancels : alert.cancels nAdjustedTime a = true)
    (hchecks : a.passesChecks nAdjustedTime fSigned = true) :
    (processAlert hash nAdjustedTime fSigned a mapAlerts).1 = false := by
  unfold processAlert
  rw [hchecks]
  simp only [Bool.not_true, Bool.false_eq_true, if_false]
  rw [if_pos]
  exact List.any_eq_true.mpr ⟨⟨h, alert⟩, AList.mem_lookup_iff.mp hstored, hcancels⟩

theorem isInEffect_of_cancels {alert : Alert} (h : a.cancels nAdjustedTime alert = true) :
    a.isInEffect nAdjustedTime = true := by
  unfold Alert.cancels at h
  by_contra hnot
  rw [Bool.not_eq_true] at hnot
  rw [hnot] at h
  cases h

end Process

/-- An alert that comes in at an adjusted time. -/
structure IncomingAlert where
  nAdjustedTime : ℤ
  fSigned : Bool
  alert : Alert

def processAlerts (hash : List UInt8 → Uint256) (mapAlerts : MapAlerts)
    (incoming : List IncomingAlert) : MapAlerts :=
  incoming.foldl (fun mapAlerts x =>
    (processAlert hash x.nAdjustedTime x.fSigned x.alert mapAlerts).2) mapAlerts

/-- The alert `x` names the reserved ID as one to cancel. -/
def IncomingAlert.cancelsMax (x : IncomingAlert) : Prop :=
  maxInt ≤ x.alert.nCancel ∨ maxInt ∈ x.alert.setCancel

theorem lookup_processAlerts {hash : List UInt8 → Uint256} {h : Uint256} {alert : Alert}
    {incoming : List IncomingAlert} {mapAlerts : MapAlerts}
    (hstored : mapAlerts.lookup h = some alert)
    (hkept : ∀ x ∈ incoming, x.alert.passesChecks x.nAdjustedTime x.fSigned = true →
      x.alert.cancels x.nAdjustedTime alert = false ∧
        alert.isInEffect x.nAdjustedTime = true) :
    (processAlerts hash mapAlerts incoming).lookup h = some alert := by
  unfold processAlerts
  induction incoming generalizing mapAlerts with
  | nil => exact hstored
  | cons x incoming ih =>
    exact ih (lookup_processAlert hstored (hkept x List.mem_cons_self))
      fun y hy => hkept y (List.mem_cons_of_mem x hy)

/-- A new alert that a stored one cancels is turned down, and no alert in effect removed for it,
exactly if it passes no check or cancels none of these. The alert that the key is compromised
stays in every state of a sequence in which no alert that passes the checks names its ID, and as
long as the clock has not come to the end of the `int`s. -/
theorem processAlert_order_iff (hash : List UInt8 → Uint256) :
    (∀ (mapAlerts : MapAlerts) (nAdjustedTime : ℤ) (a : Alert) (fSigned : Bool),
      ((∃ h alert, mapAlerts.lookup h = some alert ∧ alert.isInEffect nAdjustedTime = true ∧
          alert.cancels nAdjustedTime a = true) →
        (processAlert hash nAdjustedTime fSigned a mapAlerts).1 = false ∧
        ∀ h alert, mapAlerts.lookup h = some alert → alert.isInEffect nAdjustedTime = true →
          (processAlert hash nAdjustedTime fSigned a mapAlerts).2.lookup h = some alert) ↔
      (a.passesChecks nAdjustedTime fSigned = true →
        (∃ h alert, mapAlerts.lookup h = some alert ∧ alert.cancels nAdjustedTime a = true) →
        ∀ h alert, mapAlerts.lookup h = some alert → alert.isInEffect nAdjustedTime = true →
          a.cancels nAdjustedTime alert = false)) ∧
    ∀ (mapAlerts : MapAlerts) (incoming : List IncomingAlert) (h : Uint256) (alert : Alert),
      mapAlerts.lookup h = some alert → alert.nID = maxInt → alert.isKeyCompromise = true →
      (∀ x ∈ incoming, x.alert.passesChecks x.nAdjustedTime x.fSigned = true →
        x.nAdjustedTime < maxInt ∧ ¬x.cancelsMax) →
      ∀ before, before <+: incoming →
        (processAlerts hash mapAlerts before).lookup h = some alert := by
  refine ⟨fun mapAlerts nAdjustedTime a fSigned => ⟨fun hclaim hchecks hcancelled h alert hstored
    heffect => ?_, fun hcond hcancelled => ?_⟩, ?_⟩
  · obtain ⟨h', alert', hstored', hcancels'⟩ := hcancelled
    have hresult := hclaim ⟨h', alert', hstored', isInEffect_of_cancels hcancels', hcancels'⟩
    have hkept := hresult.2 h alert hstored heffect
    rcases processAlert_eq_of_cancelled hchecks with htrue | hmap
    · rw [hresult.1] at htrue
      cases htrue
    · rw [hmap] at hkept
      exact (lookup_cancelPrevious.mp hkept).2.1
  · obtain ⟨h', alert', hstored', heffect', hcancels'⟩ := hcancelled
    have hnone : a.passesChecks nAdjustedTime fSigned = true → ∀ h alert,
        mapAlerts.lookup h = some alert → alert.isInEffect nAdjustedTime = true →
          a.cancels nAdjustedTime alert = false :=
      fun hchecks => hcond hchecks ⟨h', alert', hstored', hcancels'⟩
    constructor
    · cases hchecks : a.passesChecks nAdjustedTime fSigned with
      | false =>
        unfold processAlert
        rw [hchecks]
        rfl
      | true =>
        have hleft := lookup_cancelPrevious.mpr
          ⟨hstored', hnone hchecks h' alert' hstored' heffect', heffect'⟩
        exact any_cancelPrevious hleft hcancels' hchecks
    · exact fun h alert hstored heffect => lookup_processAlert hstored fun hchecks =>
        ⟨hnone hchecks h alert hstored heffect, heffect⟩
  · intro mapAlerts incoming h alert hstored hmax hcompromise hsteps before hbefore
    have hexpiration : alert.nExpiration = maxInt := by
      simp only [Alert.isKeyCompromise, Bool.and_eq_true, decide_eq_true_eq] at hcompromise
      exact hcompromise.1.1.1.1.1.1
    refine lookup_processAlerts hstored fun x hx hchecks => ?_
    obtain ⟨htime, hnot⟩ := hsteps x (hbefore.subset hx) hchecks
    refine ⟨?_, decide_eq_true (hexpiration.symm ▸ htime)⟩
    unfold Alert.cancels
    rw [hmax]
    unfold IncomingAlert.cancelsMax at hnot
    simp only [not_or] at hnot
    simp [hnot]

namespace Sample

def keyCompromised : Alert where
  nExpiration := maxInt
  nID := maxInt
  nCancel := maxInt - 1
  setCancel := []
  nMinVer := 0
  nMaxVer := maxInt
  setSubVer := []
  nPriority := maxInt
  strStatusBar := "URGENT: Alert key compromised, upgrade required"
  vchMsg := [1]

def everythingOk : Alert where
  nExpiration := maxInt
  nID := 6
  nCancel := 5
  setCancel := [maxInt]
  nMinVer := 0
  nMaxVer := maxInt
  setSubVer := []
  nPriority := 1
  strStatusBar := "everything is OK"
  vchMsg := [2]

def alertHash (vchMsg : List UInt8) : Uint256 := (vchMsg.headD 0).toBitVec.setWidth 256

def storedAlerts : MapAlerts := (∅ : MapAlerts).insert 1 keyCompromised

end Sample

open Sample

/-- The alert that the key is compromised cancels the other one, which removes it all the same and
is accepted. -/
theorem processAlert_cancels_compromise :
    keyCompromised.passesChecks 1000 true = true ∧
    storedAlerts.lookup 1 = some keyCompromised ∧
    keyCompromised.cancels 1000 everythingOk = true ∧
    (processAlert alertHash 1000 true everythingOk storedAlerts).1 = true ∧
    (processAlert alertHash 1000 true everythingOk storedAlerts).2.lookup 1 = none := by
  decide +kernel

end Beancash
