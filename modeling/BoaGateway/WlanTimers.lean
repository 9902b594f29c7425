import BoaGateway.WlanSchedule

/-!
# Timers of a wireless interface

In `ELINK_TIMER_MODE` the loop keeps the latest start so far in `pre_hit_time`, where 0 means that
there is none. An entry that starts at minute 0 is therefore not held against the next ones.
-/

namespace WlanTimers

open ByteBlocks WlanSchedule

variable {t : Clock} {ks : List PsInfo} {s : State}

/-- The entry has started. -/
def begun (t : Clock) (ps : PsInfo) : Bool := decide ((ps.fTime : Int) ≤ t.current)

/-- The entries that are valid today. -/
def todays (ks : List PsInfo) (t : Clock) : List PsInfo := ks.filter (·.today t)

/-- Those of them that have started. -/
def started (ks : List PsInfo) (t : Clock) : List PsInfo := (todays ks t).filter (begun t)

/-- The action of the first entry with the latest start, if any has started. -/
def latestAction (ks : List PsInfo) (t : Clock) (s : State) : State :=
  match (started ks t).argmax PsInfo.fTime with
  | none => s
  | some ps => { s with wlan := act (s32 ps.action) s.wlan }

/-- An entry that started later than at minute 0 is there, or the first entry that started does
the same as the last one of today: its action, or nothing if it has not started. -/
def MidnightSafe (ks : List PsInfo) (t : Clock) (s : State) : Prop :=
  (∃ ps ∈ started ks t, 0 < ps.fTime) ∨
    ∀ first last, (started ks t).head? = some first → (todays ks t).getLast? = some last →
      act (s32 first.action) s.wlan =
        if begun t last then act (s32 last.action) s.wlan else s.wlan

/-- One entry of today. -/
def visit (t : Clock) (h : Hits) (ps : PsInfo) : Hits :=
  elinkEntry t.current ps { h with hitDate := true }

theorem scan_elink (ks : List PsInfo) (h : Hits) :
    scan .elink t ks h = (todays ks t).foldl (visit t) h := by
  induction ks generalizing h with
  | nil => rfl
  | cons ps ks ih =>
    rw [scan, todays, List.filter_cons]
    by_cases htoday : ps.today t = true
    · rw [if_neg (Nat.not_lt.mpr (today_le htoday)), if_pos htoday, if_pos htoday, List.foldl_cons]
      exact ih _
    · rw [if_neg htoday, if_neg htoday, ite_self]
      exact ih h

/-- What the variables say of the entries of today that were visited. -/
inductive Found (t : Clock) (l : List PsInfo) (h : Hits) : Prop where
  | nothing : l.filter (begun t) = [] → h.preHitTime = 0 → h.hitTime = false → Found t l h
  | midnight (last final : PsInfo) : (∀ ps ∈ l.filter (begun t), ps.fTime = 0) →
    (l.filter (begun t)).getLast? = some last → l.getLast? = some final → h.preHitTime = 0 →
    h.action = s32 last.action → h.hitTime = begun t final → Found t l h
  | later (ps : PsInfo) : (l.filter (begun t)).argmax PsInfo.fTime = some ps → 0 < ps.fTime →
    h.preHitTime = ps.fTime → h.action = s32 ps.action → h.hitTime = true → Found t l h

theorem argmax_concat_none {l : List PsInfo} {ps : PsInfo} (h : l = []) :
    (l ++ [ps]).argmax PsInfo.fTime = some ps := by
  rw [h]
  rfl

theorem argmax_concat_some {l : List PsInfo} {m ps : PsInfo}
    (h : l.argmax PsInfo.fTime = some m) : (l ++ [ps]).argmax PsInfo.fTime =
      if m.fTime < ps.fTime then some ps else some m := by
  rw [List.argmax_concat, h]

/-- All elements are equally large, so the first one is the largest. -/
theorem argmax_head {l : List PsInfo} (h : ∀ ps ∈ l, ps.fTime = 0) :
    l.argmax PsInfo.fTime = l.head? := by
  induction l using List.reverseRecOn with
  | nil => rfl
  | append_singleton l ps ih =>
    have hrest := ih fun ps' hps => h ps' (List.mem_append_left _ hps)
    cases l with
    | nil => rfl
    | cons m l =>
      have hlast := h ps (List.mem_append_right _ (List.mem_singleton_self ps))
      rw [argmax_concat_some hrest, hlast, if_neg (Nat.not_lt_zero _)]
      rfl

/-- An entry that has not started is only noticed when nothing later than minute 0 has. -/
theorem found_pending {l : List PsInfo} {h : Hits} {ps : PsInfo} (hfound : Found t l h)
    (hsmall : ps.fTime < 2 ^ 31) (hpending : begun t ps = false) :
    Found t (l ++ [ps]) (visit t h ps) := by
  have hfilter : (l ++ [ps]).filter (begun t) = l.filter (begun t) := by
    rw [List.filter_append, List.filter_cons, hpending, if_neg Bool.false_ne_true, List.filter_nil,
      List.append_nil]
  have hlast : (l ++ [ps]).getLast? = some ps := List.getLast?_concat
  have hnot : ¬s32 ps.fTime ≤ t.current := by
    rw [s32_eq hsmall]
    exact of_decide_eq_false hpending
  have hvisit : visit t h ps =
      if h.preHitTime = 0 then { h with hitDate := true, hitTime := false }
      else { h with hitDate := true } := by
    rw [visit, elinkEntry, if_neg hnot]
  cases hfound with
  | nothing hnone hzero htime =>
    rw [hvisit, if_pos hzero]
    exact .nothing (hfilter.trans hnone) hzero rfl
  | midnight last final hall hgot _ hzero haction htime =>
    rw [hvisit, if_pos hzero]
    exact .midnight last ps (hfilter ▸ hall) (hfilter ▸ hgot) hlast hzero haction hpending.symm
  | later m hmax hpos hpre haction htime =>
    rw [hvisit, if_neg (by omega)]
    exact .later m (hfilter ▸ hmax) hpos hpre haction htime

/-- An entry that has started takes the place of an earlier start, and of none. -/
theorem found_begun {l : List PsInfo} {h : Hits} {ps : PsInfo} (hfound : Found t l h)
    (hsmall : ps.fTime < 2 ^ 31) (hbegun : begun t ps = true) :
    Found t (l ++ [ps]) (visit t h ps) := by
  have hfilter : (l ++ [ps]).filter (begun t) = l.filter (begun t) ++ [ps] := by
    rw [List.filter_append, List.filter_cons, hbegun, if_pos rfl, List.filter_nil]
  have hlast : (l ++ [ps]).getLast? = some ps := List.getLast?_concat
  have hgot : ((l ++ [ps]).filter (begun t)).getLast? = some ps := by
    rw [hfilter]
    exact List.getLast?_concat
  have hstart : s32 ps.fTime = ps.fTime := s32_eq hsmall
  have hle : s32 ps.fTime ≤ t.current := by
    rw [hstart]
    exact of_decide_eq_true hbegun
  have hzero : h.preHitTime = 0 → visit t h ps =
      ⟨true, true, s32 ps.action, s32 ps.fTime⟩ := by
    intro hpre
    rw [visit, elinkEntry, if_pos hle]
    dsimp only
    rw [if_neg (not_not_intro hpre)]
  have hfresh : h.preHitTime = 0 → (∀ ps' ∈ l.filter (begun t), ps'.fTime = 0) →
      Found t (l ++ [ps]) (visit t h ps) := by
    intro hpre hall
    rw [hzero hpre]
    rcases Nat.eq_zero_or_pos ps.fTime with hmid | hpos
    · refine .midnight ps ps ?_ hgot hlast ?_ rfl hbegun.symm
      · rw [hfilter]
        intro ps' hps
        rcases List.mem_append.mp hps with hps | hps
        · exact hall ps' hps
        · rw [List.mem_singleton.mp hps]
          exact hmid
      · change s32 ps.fTime = 0
        rw [hstart, hmid]
        rfl
    · refine .later ps ?_ hpos hstart rfl rfl
      rw [hfilter]
      cases hmax : (l.filter (begun t)).argmax PsInfo.fTime with
      | none => exact argmax_concat_none (List.argmax_eq_none.mp hmax)
      | some m =>
        rw [argmax_concat_some hmax, hall m (List.argmax_mem hmax), if_pos hpos]
  cases hfound with
  | nothing hnone hpre _ =>
    refine hfresh hpre fun ps' hps => ?_
    rw [hnone] at hps
    exact absurd hps List.not_mem_nil
  | midnight _ _ hall _ _ hpre _ _ => exact hfresh hpre hall
  | later m hmax hpos hpre haction htime =>
    have hne : h.preHitTime ≠ 0 := by omega
    have hvisit : visit t h ps = if h.preHitTime < s32 ps.fTime then
        ⟨true, true, s32 ps.action, s32 ps.fTime⟩ else ⟨true, true, h.action, h.preHitTime⟩ := by
      rw [visit, elinkEntry, if_pos hle]
      dsimp only
      rw [if_pos hne]
    have hnext : ((l.filter (begun t)) ++ [ps]).argmax PsInfo.fTime =
        if m.fTime < ps.fTime then some ps else some m := argmax_concat_some hmax
    rw [hvisit, hpre, hstart]
    by_cases hlt : m.fTime < ps.fTime
    · rw [if_pos hlt] at hnext
      rw [if_pos (Int.ofNat_lt.mpr hlt)]
      exact .later ps (hfilter ▸ hnext) (by omega) rfl rfl rfl
    · rw [if_neg hlt] at hnext
      rw [if_neg (by omega)]
      exact .later m (hfilter ▸ hnext) hpos rfl haction rfl

theorem found_foldl {l : List PsInfo} (hsmall : SmallTimes l) :
    Found t l (l.foldl (visit t) noHits) := by
  induction l using List.reverseRecOn with
  | nil => exact .nothing rfl rfl rfl
  | append_singleton l ps ih =>
    have hrest := ih fun ps' hps => hsmall ps' (List.mem_append_left _ hps)
    have hps := (hsmall ps (List.mem_append_right _ (List.mem_singleton_self ps))).1
    rw [List.foldl_append, List.foldl_cons, List.foldl_nil]
    cases hbegun : begun t ps with
    | true => exact found_begun hrest hps hbegun
    | false => exact found_pending hrest hps hbegun

theorem foldl_hitDate {l : List PsInfo} (h : Hits) (hne : l ≠ []) :
    (l.foldl (visit t) h).hitDate = true := by
  have hvisit : ∀ h ps, (visit t h ps).hitDate = true := by
    intro h ps
    dsimp only [visit, elinkEntry]
    by_cases hle : s32 ps.fTime ≤ t.current
    · rw [if_pos hle]
      split
      · split <;> rfl
      · rfl
    · rw [if_neg hle]
      split <;> rfl
  induction l using List.reverseRecOn with
  | nil => exact absurd rfl hne
  | append_singleton l ps ih =>
    rw [List.foldl_append]
    exact hvisit _ ps

/-- A call does what is due exactly when midnight does no harm. -/
theorem latestAction_iff (hsmall : SmallTimes ks) :
    chkWlanSchKsRule .elink ks t s = latestAction ks t s ↔ MidnightSafe ks t s := by
  have hsmall : SmallTimes (todays ks t) := fun ps hps => hsmall ps (List.mem_of_mem_filter hps)
  have hfound := found_foldl (t := t) hsmall
  have hdate := foldl_hitDate (t := t) (l := todays ks t) noHits
  rw [chkWlanSchKsRule, scan_elink, latestAction, MidnightSafe]
  generalize (todays ks t).foldl (visit t) noHits = h at hfound hdate ⊢
  cases hfound with
  | nothing hnone _ htime =>
    rw [started, hnone, htime, Bool.and_false, if_neg Bool.false_ne_true]
    exact iff_of_true rfl (.inr fun first _ hfirst => by cases hfirst)
  | later m hmax hpos hpre haction htime =>
    have hmem := List.mem_of_mem_filter (List.argmax_mem hmax)
    rw [started, hmax, htime, hdate (List.ne_nil_of_mem hmem), haction]
    exact iff_of_true rfl (.inl ⟨m, List.argmax_mem hmax, hpos⟩)
  | midnight last final hall hgot hfinal _ haction htime =>
    have hnolater : ¬∃ ps ∈ started ks t, 0 < ps.fTime := by
      rintro ⟨ps, hps, hpos⟩
      have hzero := hall ps hps
      omega
    obtain ⟨first, hfirst⟩ : ∃ first, (started ks t).head? = some first := by
      rw [started]
      cases hlist : (todays ks t).filter (begun t) with
      | nil =>
        rw [hlist] at hgot
        cases hgot
      | cons first rest => exact ⟨first, rfl⟩
    have hne : todays ks t ≠ [] := by
      intro hnil
      rw [hnil] at hfinal
      cases hfinal
    rw [started] at hfirst
    rw [or_iff_right hnolater, started, argmax_head hall, hfirst, hdate hne, htime, haction]
    have hsame : begun t final = true → last = final := by
      intro hbegun
      obtain ⟨front, hfront⟩ := List.getLast?_eq_some_iff.mp hfinal
      rw [hfront, List.filter_append, List.filter_cons, hbegun, if_pos rfl, List.filter_nil,
        List.getLast?_concat] at hgot
      exact (Option.some.inj hgot).symm
    have hstate : ∀ w w' : Wlan,
        ({ s with wlan := w } : State) = { s with wlan := w' } ↔ w = w' := by
      intro w w'
      exact ⟨fun h => congrArg State.wlan h, fun h => by rw [h]⟩
    cases hbegun : begun t final with
    | true =>
      rw [Bool.and_self, if_pos rfl, hsame hbegun]
      dsimp only
      rw [hstate, eq_comm]
      constructor
      · intro heq first' final' hfirst' hfinal'
        cases hfirst'
        cases hfinal.symm.trans hfinal'
        rw [hbegun, if_pos rfl]
        exact heq
      · intro h
        have heq := h first final rfl hfinal
        rwa [hbegun, if_pos rfl] at heq
    | false =>
      rw [Bool.and_false, if_neg Bool.false_ne_true]
      dsimp only
      have hself : s = { s with wlan := act (s32 first.action) s.wlan } ↔
          act (s32 first.action) s.wlan = s.wlan := by
        exact ⟨fun h => (congrArg State.wlan h).symm, fun h => by rw [h]⟩
      rw [hself]
      constructor
      · intro heq first' final' hfirst' hfinal'
        cases hfirst'
        cases hfinal.symm.trans hfinal'
        rw [hbegun, if_neg Bool.false_ne_true]
        exact heq
      · intro h
        have heq := h first final rfl hfinal
        rwa [hbegun, if_neg Bool.false_ne_true] at heq

/-- Up from 6:00 on, down from 22:00 on. -/
def dayTimers : List PsInfo := [⟨360, 0, 1, 7⟩, ⟨1320, 0, 0, 7⟩]

theorem dayTimers_latest :
    chkWlanSchKsRule .elink dayTimers ⟨0, 12, 0⟩ (initial upWlan) =
      latestAction dayTimers ⟨0, 12, 0⟩ (initial upWlan) := by
  have hsmall : SmallTimes dayTimers := by
    rw [SmallTimes, dayTimers]
    decide
  exact (latestAction_iff hsmall).mpr (.inl ⟨⟨360, 0, 1, 7⟩, by decide, by decide⟩)

/-- Down from midnight on, up from 6:00 on. -/
def midnightTimers : List PsInfo := [⟨0, 0, 0, 7⟩, ⟨360, 0, 1, 7⟩]

/-- At 1:00 the first timer is due, but the second one takes its hit back. -/
theorem midnightTimers_not_latest :
    chkWlanSchKsRule .elink midnightTimers ⟨0, 1, 0⟩ (initial upWlan) ≠
      latestAction midnightTimers ⟨0, 1, 0⟩ (initial upWlan) := by
  intro h
  have hup := congrArg (fun s => isWlanExist s.wlan) h
  exact absurd hup (by decide)

end WlanTimers
