import BoaGateway.ByteBlocks
import Mathlib.Data.List.MinMax

/-!
# Schedules of a wireless interface

`chk_wlanSch_ksRule` is called every few seconds. It goes through the entries that are valid
today and brings the interface up or down. In `DEFAULT_TIMER_MODE` an entry is a window in which
the interface is down; in `ELINK_TIMER_MODE` it is an action from a minute on.
-/

namespace WlanSchedule

open ByteBlocks

inductive Iface where
  | root
  | vap (n : Fin 4)
  | vxd
  deriving DecidableEq

/-- The interfaces that are up, and what the MIB says. -/
structure Wlan where
  up : Iface → Bool
  enabled : Iface → Bool
  wifiModuleDisabled : Bool

/-- `is_wlan_exist`. -/
def isWlanExist (w : Wlan) : Bool := w.up .root

/-- `enable_wlan`. -/
def enableWlan (w : Wlan) : Wlan :=
  if w.wifiModuleDisabled then w else { w with up := fun i => w.enabled i || w.up i }

/-- `disable_wlan`. -/
def disableWlan (w : Wlan) : Wlan := { w with up := fun i => !w.enabled i && w.up i }

inductive Mode where
  | default | elink | other
  deriving DecidableEq

/-- `struct ps_info`; the members are `unsigned int`. -/
structure PsInfo where
  fTime : Nat
  tTime : Nat
  action : Nat
  date : Nat
  deriving DecidableEq

/-- What `localtime` gives. -/
structure Clock where
  wday : Fin 7
  hour : Fin 24
  min : Fin 60

def Clock.current (t : Clock) : Int := t.hour * 60 + t.min

/-- The local variables of the loop. -/
structure Hits where
  hitDate : Bool
  hitTime : Bool
  action : Int
  preHitTime : Int

/-- An entry is valid today. -/
def PsInfo.today (ps : PsInfo) (t : Clock) : Bool := ps.date == 7 || ps.date == t.wday

/-- An entry that is valid today, in `ELINK_TIMER_MODE`. -/
def elinkEntry (current : Int) (ps : PsInfo) (h : Hits) : Hits :=
  let start := s32 ps.fTime
  if start ≤ current then
    let h := { h with hitTime := true }
    if h.preHitTime ≠ 0 then
      if h.preHitTime < start then { h with preHitTime := start, action := s32 ps.action } else h
    else { h with preHitTime := start, action := s32 ps.action }
  else if h.preHitTime = 0 then { h with hitTime := false }
  else h

/-- The window of an entry that is valid today, in `DEFAULT_TIMER_MODE`. -/
def hitWindow (current : Int) (ps : PsInfo) : Bool :=
  let start := s32 ps.fTime
  let stop := s32 ps.tTime
  if start ≤ stop then decide (start ≤ current) && decide (current < stop)
  else decide (start ≤ current) || decide (current < stop)

/-- The loop over the entries. A date above 7 is no entry. -/
def scan (mode : Mode) (t : Clock) : List PsInfo → Hits → Hits
  | [], h => h
  | ps :: ks, h =>
    if 7 < ps.date then scan mode t ks h
    else if ps.today t then
      let h := { h with hitDate := true }
      match mode with
      | .elink => scan mode t ks (elinkEntry t.current ps h)
      | .default =>
        let h := { h with hitTime := hitWindow t.current ps }
        if h.hitDate && h.hitTime then h else scan mode t ks h
      | .other => scan mode t ks h
    else scan mode t ks h

def noHits : Hits := ⟨false, false, 0, 0⟩

/-- The interface with its entry of `pre_enable_state_new`. -/
structure State where
  wlan : Wlan
  preEnableState : Int

/-- What an action other than 0, or 0, does to the interface. -/
def act (action : Int) (w : Wlan) : Wlan :=
  if action ≠ 0 then if !isWlanExist w then enableWlan w else w
  else if isWlanExist w then disableWlan w else w

/-- `chk_wlanSch_ksRule`. -/
def chkWlanSchKsRule (mode : Mode) (ks : List PsInfo) (t : Clock) (s : State) : State :=
  let h := scan mode t ks noHits
  match mode with
  | .elink => if h.hitDate && h.hitTime then { s with wlan := act h.action s.wlan } else s
  | .default =>
    let down : State := ⟨act 0 s.wlan, 1⟩
    let up : State := ⟨act 1 s.wlan, 0⟩
    if s.preEnableState < 0 then if h.hitDate && h.hitTime then down else up
    else if s.preEnableState = 0 ∧ h.hitDate ∧ h.hitTime then down
    else if s.preEnableState ≠ 0 ∧ ¬(h.hitDate ∧ h.hitTime) then up
    else s
  | .other => s

/-- The state when the program starts. -/
def initial (w : Wlan) : State := ⟨w, -1⟩

/-- Times that are the same as signed and as unsigned numbers. -/
def SmallTimes (ks : List PsInfo) : Prop := ∀ ps ∈ ks, ps.fTime < 2 ^ 31 ∧ ps.tTime < 2 ^ 31

variable {t : Clock} {ks : List PsInfo}

theorem today_le {ps : PsInfo} (h : ps.today t = true) : ps.date ≤ 7 := by
  have hwday := t.wday.isLt
  rw [PsInfo.today, Bool.or_eq_true, beq_iff_eq, beq_iff_eq] at h
  omega

/-- The loop finds a window exactly when an entry of today has one. -/
theorem scan_default (ks : List PsInfo) {h : Hits} (hno : (h.hitDate && h.hitTime) = false) :
    ((scan .default t ks h).hitDate && (scan .default t ks h).hitTime) =
      ks.any fun ps => ps.today t && hitWindow t.current ps := by
  induction ks generalizing h with
  | nil => exact hno
  | cons ps ks ih =>
    rw [scan, List.any_cons]
    by_cases htoday : ps.today t = true
    · rw [if_neg (Nat.not_lt.mpr (today_le htoday)), if_pos htoday, htoday, Bool.true_and]
      dsimp only
      rw [Bool.true_and]
      cases hwindow : hitWindow t.current ps with
      | true => rfl
      | false =>
        rw [if_neg Bool.false_ne_true, Bool.false_or]
        exact ih rfl
    · rw [Bool.eq_false_of_not_eq_true htoday, Bool.false_and, Bool.false_or,
        if_neg Bool.false_ne_true, ite_self, ih hno]

/-- The entry's window of a weekday contains the time. -/
def WindowOf (ps : PsInfo) (day : Fin 7) (t : Clock) : Prop :=
  if ps.fTime ≤ ps.tTime then t.wday = day ∧ ps.fTime ≤ t.current ∧ t.current < ps.tTime
  else t.wday = day ∧ ps.fTime ≤ t.current ∨ t.wday = day + 1 ∧ t.current < ps.tTime

/-- The time lies in the window of some entry on some day. -/
def InWindow (ks : List PsInfo) (t : Clock) : Prop :=
  ∃ ps ∈ ks, ∃ day : Fin 7, (ps.date = 7 ∨ ps.date = day) ∧ WindowOf ps day t

/-- A window that is open whatever day the early hours of a window across midnight belong to. -/
def PlainWindow (ps : PsInfo) (t : Clock) : Prop :=
  if ps.fTime ≤ ps.tTime then ps.today t = true ∧ ps.fTime ≤ t.current ∧ t.current < ps.tTime
  else ps.today t = true ∧ ps.fTime ≤ t.current ∨ ps.date = 7 ∧ t.current < ps.tTime

/-- An entry of this weekday runs across midnight, and it is before its end. -/
def EarlyHours (ks : List PsInfo) (day : Fin 7) (t : Clock) : Prop :=
  ∃ ps ∈ ks, ps.date = day ∧ ps.tTime < ps.fTime ∧ t.current < ps.tTime

theorem hitWindow_iff {ps : PsInfo} (h : ps.fTime < 2 ^ 31 ∧ ps.tTime < 2 ^ 31) :
    hitWindow t.current ps = true ↔
      if ps.fTime ≤ ps.tTime then (ps.fTime : Int) ≤ t.current ∧ t.current < ps.tTime
      else (ps.fTime : Int) ≤ t.current ∨ t.current < ps.tTime := by
  rw [hitWindow, s32_eq h.1, s32_eq h.2]
  by_cases hle : ps.fTime ≤ ps.tTime
  · rw [if_pos hle, if_pos (Int.ofNat_le.mpr hle), Bool.and_eq_true, decide_eq_true_eq,
      decide_eq_true_eq]
  · rw [if_neg hle, if_neg (by omega), Bool.or_eq_true, decide_eq_true_eq, decide_eq_true_eq]

/-- What the loop finds: an entry of today that runs across midnight counts from the morning on. -/
theorem hits_iff (hsmall : SmallTimes ks) :
    (ks.any fun ps => ps.today t && hitWindow t.current ps) = true ↔
      (∃ ps ∈ ks, PlainWindow ps t) ∨ EarlyHours ks t.wday t := by
  rw [List.any_eq_true]
  constructor
  · rintro ⟨ps, hps, hboth⟩
    obtain ⟨htoday, hwindow⟩ := Bool.and_eq_true_iff.mp hboth
    rw [hitWindow_iff (hsmall ps hps)] at hwindow
    by_cases hle : ps.fTime ≤ ps.tTime
    · rw [if_pos hle] at hwindow
      refine .inl ⟨ps, hps, ?_⟩
      rw [PlainWindow, if_pos hle]
      exact ⟨htoday, hwindow⟩
    · rw [if_neg hle] at hwindow
      rcases hwindow with hstart | hstop
      · refine .inl ⟨ps, hps, ?_⟩
        rw [PlainWindow, if_neg hle]
        exact .inl ⟨htoday, hstart⟩
      · rcases Bool.or_eq_true_iff.mp htoday with hall | hday
        · refine .inl ⟨ps, hps, ?_⟩
          rw [PlainWindow, if_neg hle]
          exact .inr ⟨eq_of_beq hall, hstop⟩
        · exact .inr ⟨ps, hps, eq_of_beq hday, Nat.lt_of_not_le hle, hstop⟩
  · rintro (⟨ps, hps, hplain⟩ | ⟨ps, hps, hday, hlt, hstop⟩)
    · refine ⟨ps, hps, ?_⟩
      rw [PlainWindow] at hplain
      rw [Bool.and_eq_true, hitWindow_iff (hsmall ps hps)]
      by_cases hle : ps.fTime ≤ ps.tTime
      · rw [if_pos hle] at hplain ⊢
        exact hplain
      · rw [if_neg hle] at hplain ⊢
        rcases hplain with ⟨htoday, hstart⟩ | ⟨hall, hstop⟩
        · exact ⟨htoday, .inl hstart⟩
        · exact ⟨by rw [PsInfo.today, hall]; rfl, .inr hstop⟩
    · refine ⟨ps, hps, ?_⟩
      rw [Bool.and_eq_true, hitWindow_iff (hsmall ps hps), if_neg (Nat.not_le.mpr hlt)]
      exact ⟨by rw [PsInfo.today, hday, beq_self_eq_true, Bool.or_true], .inr hstop⟩

theorem day_after_before : ∀ day : Fin 7, day + 1 - 1 = day := by decide

theorem day_before_after : ∀ day : Fin 7, day - 1 + 1 = day := by decide

/-- What the windows are: an entry of yesterday that runs across midnight counts till its end. -/
theorem inWindow_iff :
    InWindow ks t ↔ (∃ ps ∈ ks, PlainWindow ps t) ∨ EarlyHours ks (t.wday - 1) t := by
  have htoday : ∀ ps : PsInfo, ps.date = 7 ∨ ps.date = t.wday → ps.today t = true := by
    intro ps hdate
    rw [PsInfo.today, Bool.or_eq_true, beq_iff_eq, beq_iff_eq]
    exact hdate
  constructor
  · rintro ⟨ps, hps, day, hdate, hwindow⟩
    rw [WindowOf] at hwindow
    by_cases hle : ps.fTime ≤ ps.tTime
    · rw [if_pos hle] at hwindow
      obtain ⟨rfl, htime⟩ := hwindow
      refine .inl ⟨ps, hps, ?_⟩
      rw [PlainWindow, if_pos hle]
      exact ⟨htoday ps hdate, htime⟩
    · rw [if_neg hle] at hwindow
      rcases hwindow with ⟨rfl, hstart⟩ | ⟨hnext, hstop⟩
      · refine .inl ⟨ps, hps, ?_⟩
        rw [PlainWindow, if_neg hle]
        exact .inl ⟨htoday ps hdate, hstart⟩
      · rcases hdate with hall | hday
        · refine .inl ⟨ps, hps, ?_⟩
          rw [PlainWindow, if_neg hle]
          exact .inr ⟨hall, hstop⟩
        · refine .inr ⟨ps, hps, ?_, Nat.lt_of_not_le hle, hstop⟩
          rw [hnext, day_after_before]
          exact hday
  · rintro (⟨ps, hps, hplain⟩ | ⟨ps, hps, hday, hlt, hstop⟩)
    · have hdate : ps.today t = true → ps.date = 7 ∨ ps.date = t.wday := by
        intro h
        rw [PsInfo.today, Bool.or_eq_true, beq_iff_eq, beq_iff_eq] at h
        exact h
      rw [PlainWindow] at hplain
      by_cases hle : ps.fTime ≤ ps.tTime
      · rw [if_pos hle] at hplain
        refine ⟨ps, hps, t.wday, hdate hplain.1, ?_⟩
        rw [WindowOf, if_pos hle]
        exact ⟨rfl, hplain.2⟩
      · rw [if_neg hle] at hplain
        rcases hplain with ⟨hday, hstart⟩ | ⟨hall, hstop⟩
        · refine ⟨ps, hps, t.wday, hdate hday, ?_⟩
          rw [WindowOf, if_neg hle]
          exact .inl ⟨rfl, hstart⟩
        · refine ⟨ps, hps, t.wday - 1, .inl hall, ?_⟩
          rw [WindowOf, if_neg hle]
          exact .inr ⟨(day_before_after t.wday).symm, hstop⟩
    · refine ⟨ps, hps, t.wday - 1, .inr hday, ?_⟩
      rw [WindowOf, if_neg (Nat.not_le.mpr hlt)]
      exact .inr ⟨(day_before_after t.wday).symm, hstop⟩

variable {s : State}

/-- The interface and the state that is kept for it say the same. -/
def Agrees (s : State) : Prop :=
  s.preEnableState < 0 ∨ s.preEnableState = 1 ∧ isWlanExist s.wlan = false ∨
    s.preEnableState = 0 ∧ isWlanExist s.wlan = true

/-- The interface is down exactly in the windows, and that is kept. -/
def Follows (ks : List PsInfo) (t : Clock) (s : State) : Prop :=
  (isWlanExist s.wlan = false ↔ InWindow ks t) ∧ (s.preEnableState = 1 ↔ InWindow ks t) ∧
    (s.preEnableState = 0 ↔ ¬InWindow ks t)

/-- In the early hours of a window across midnight another window is open, or there is one of
yesterday exactly when there is one of today; and the interface can be brought where it has to
be. -/
def Kept (ks : List PsInfo) (t : Clock) (s : State) : Prop :=
  ((∃ ps ∈ ks, PlainWindow ps t) ∨ (EarlyHours ks t.wday t ↔ EarlyHours ks (t.wday - 1) t)) ∧
    (InWindow ks t → isWlanExist s.wlan = false ∨ s.wlan.enabled .root = true) ∧
    (¬InWindow ks t → isWlanExist s.wlan = true ∨
      s.wlan.enabled .root = true ∧ s.wlan.wifiModuleDisabled = false)

/-- What comes about by such calls. In between the MIB may change. -/
inductive Reach : State → Prop where
  | initial (w : Wlan) : Reach (initial w)
  | call {s : State} {ks : List PsInfo} {t : Clock} : Reach s → SmallTimes ks → Kept ks t s →
    Reach (chkWlanSchKsRule .default ks t s)
  | mib {s : State} (enabled : Iface → Bool) (wifiModuleDisabled : Bool) : Reach s →
    Reach { s with wlan := { s.wlan with enabled, wifiModuleDisabled } }

theorem act_down {w : Wlan} :
    isWlanExist (act 0 w) = false ↔ isWlanExist w = false ∨ w.enabled .root = true := by
  rw [act, if_neg (not_not_intro rfl)]
  cases hup : isWlanExist w with
  | false => exact iff_of_true hup (.inl rfl)
  | true =>
    rw [if_pos rfl]
    change (!w.enabled .root && isWlanExist w) = false ↔ _
    rw [hup, Bool.and_true, Bool.not_eq_false']
    exact ⟨.inr, fun h => h.resolve_left Bool.noConfusion⟩

theorem act_up {w : Wlan} : isWlanExist (act 1 w) = true ↔
    isWlanExist w = true ∨ w.enabled .root = true ∧ w.wifiModuleDisabled = false := by
  rw [act, if_pos (by decide)]
  cases hup : isWlanExist w with
  | true => exact iff_of_true hup (.inl rfl)
  | false =>
    rw [Bool.not_false, if_pos rfl, enableWlan]
    cases hmodule : w.wifiModuleDisabled with
    | true =>
      rw [if_pos rfl, hup]
      exact iff_of_false Bool.noConfusion (by simp)
    | false =>
      rw [if_neg Bool.false_ne_true]
      change (w.enabled .root || isWlanExist w) = true ↔ _
      rw [hup, Bool.or_false]
      exact ⟨fun h => .inr ⟨h, rfl⟩, fun h => (h.resolve_left Bool.noConfusion).1⟩

/-- In a state that agrees with the interface a call acts as the loop finds. -/
theorem chk_default (hagrees : Agrees s) : chkWlanSchKsRule .default ks t s =
    if ks.any fun ps => ps.today t && hitWindow t.current ps then ⟨act 0 s.wlan, 1⟩
    else ⟨act 1 s.wlan, 0⟩ := by
  rw [← scan_default ks (h := noHits) rfl, chkWlanSchKsRule]
  generalize scan .default t ks noHits = h
  obtain ⟨w, pre⟩ := s
  rcases hagrees with hfirst | ⟨hone, hdown⟩ | ⟨hzero, hup⟩
  · rw [if_pos hfirst]
  · change pre = 1 at hone
    change isWlanExist w = false at hdown
    subst hone
    have hkeep : act 0 w = w := by
      rw [act, if_neg (not_not_intro rfl), hdown, if_neg Bool.false_ne_true]
    cases hhit : h.hitDate && h.hitTime with
    | true =>
      rw [Bool.and_eq_true] at hhit
      simp [hhit, hkeep]
    | false =>
      have hno : ¬(h.hitDate = true ∧ h.hitTime = true) := by
        rw [← Bool.and_eq_true, hhit]
        exact Bool.false_ne_true
      simp [hno]
  · change pre = 0 at hzero
    change isWlanExist w = true at hup
    subst hzero
    have hkeep : act 1 w = w := by
      rw [act, if_pos (by decide), hup, Bool.not_true, if_neg Bool.false_ne_true]
    cases hhit : h.hitDate && h.hitTime with
    | true =>
      rw [Bool.and_eq_true] at hhit
      simp [hhit]
    | false =>
      have hno : ¬(h.hitDate = true ∧ h.hitTime = true) := by
        rw [← Bool.and_eq_true, hhit]
        exact Bool.false_ne_true
      simp [hno, hkeep]

/-- A call follows the windows exactly when it is kept. -/
theorem follows_iff (hagrees : Agrees s) (hsmall : SmallTimes ks) :
    Follows ks t (chkWlanSchKsRule .default ks t s) ↔ Kept ks t s := by
  have hhits := hits_iff (t := t) hsmall
  have hsame : ((ks.any fun ps => ps.today t && hitWindow t.current ps) = true ↔ InWindow ks t) ↔
      (∃ ps ∈ ks, PlainWindow ps t) ∨
        (EarlyHours ks t.wday t ↔ EarlyHours ks (t.wday - 1) t) := by
    rw [hhits, inWindow_iff]
    by_cases hplain : ∃ ps ∈ ks, PlainWindow ps t
    · simp only [hplain, true_or]
    · simp only [hplain, false_or]
  rw [chk_default hagrees, Kept, ← hsame]
  cases ks.any fun ps => ps.today t && hitWindow t.current ps with
  | true =>
    rw [if_pos rfl, Follows, act_down]
    dsimp only
    simp only [true_iff, one_ne_zero, false_iff, not_not]
    constructor
    · rintro ⟨hdown, hin, -⟩
      exact ⟨hin, fun _ => hdown.mpr hin, fun hout => absurd hin hout⟩
    · rintro ⟨hin, hdown, -⟩
      exact ⟨iff_of_true (hdown hin) hin, hin, hin⟩
  | false =>
    rw [if_neg Bool.false_ne_true, Follows, ← Bool.not_eq_true, act_up]
    dsimp only
    simp only [zero_ne_one, false_iff, true_iff, Bool.false_eq_true]
    constructor
    · rintro ⟨hup, hout, -⟩
      refine ⟨hout, fun hin => absurd hin hout, fun _ => ?_⟩
      exact not_not.mp (mt hup.mp hout)
    · rintro ⟨hout, -, hup⟩
      exact ⟨iff_of_false (not_not_intro (hup hout)) hout, hout, hout⟩

theorem agrees_of_follows (h : Follows ks t s) : Agrees s := by
  obtain ⟨hdown, hone, hzero⟩ := h
  by_cases hin : InWindow ks t
  · exact .inr (.inl ⟨hone.mpr hin, hdown.mpr hin⟩)
  · exact .inr (.inr ⟨hzero.mpr hin, by rw [← Bool.not_eq_false]; exact mt hdown.mp hin⟩)

theorem reach_agrees (h : Reach s) : Agrees s := by
  induction h with
  | initial w => exact .inl (Int.negSucc_lt_zero 0)
  | call _ hsmall hkept ih => exact agrees_of_follows ((follows_iff ih hsmall).mpr hkept)
  | mib _ _ _ ih => exact ih

/-- In a run of kept calls a call follows the windows exactly when it is kept. -/
theorem schedule_followed (h : Reach s) (hsmall : SmallTimes ks) :
    Follows ks t (chkWlanSchKsRule .default ks t s) ↔ Kept ks t s :=
  follows_iff (reach_agrees h) hsmall

/-- An entry of Sunday from 22:00 to 6:00. -/
def nightEntry : PsInfo := ⟨1320, 360, 0, 0⟩

/-- An interface that is up. -/
def upWlan : Wlan := ⟨fun _ => true, fun _ => true, false⟩

/-- On Monday at noon the interface is up. -/
theorem noon_followed :
    Follows [nightEntry] ⟨1, 12, 0⟩ (chkWlanSchKsRule .default [nightEntry] ⟨1, 12, 0⟩
      (initial upWlan)) := by
  have hsmall : SmallTimes [nightEntry] := by
    rw [SmallTimes, List.forall_mem_singleton]
    decide
  refine (schedule_followed (.initial upWlan) hsmall).mpr
    ⟨.inr (iff_of_false ?_ ?_), fun _ => .inr rfl, fun _ => .inl rfl⟩
  · rintro ⟨ps, hps, -, -, hstop⟩
    rw [List.mem_singleton.mp hps] at hstop
    exact absurd hstop (by decide)
  · rintro ⟨ps, hps, -, -, hstop⟩
    rw [List.mem_singleton.mp hps] at hstop
    exact absurd hstop (by decide)

/-- On Monday at 1:00 the interface is up. -/
theorem night_not_followed :
    ¬Follows [nightEntry] ⟨1, 1, 0⟩ (chkWlanSchKsRule .default [nightEntry] ⟨1, 1, 0⟩
      (initial upWlan)) := by
  rintro ⟨-, hone, -⟩
  have hin : InWindow [nightEntry] ⟨1, 1, 0⟩ := by
    refine ⟨nightEntry, List.mem_cons_self, 0, .inr rfl, ?_⟩
    rw [WindowOf, if_neg (by decide)]
    exact .inr ⟨rfl, by decide⟩
  exact absurd (hone.mpr hin) (by decide)

end WlanSchedule
