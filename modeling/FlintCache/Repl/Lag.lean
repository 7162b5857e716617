import Mathlib

/-!
# Repl/Lag — the replication lag a master sees, and the writes it sheds for it

The hub samples the master's sequence number against the clock and remembers what every replica
acknowledged.  The lag is the age of the first sample the freshest live replica has not reached; a
write is shed once that age meets the hard cap.  Only the newest `maxSamples` samples are kept.
-/

namespace Flint

open List Option

/-! ## The hub -/

def livenessWindowMs : ℕ := 2000

def maxSamples : ℕ := 512

/-- What one replica has acknowledged. -/
structure AckState where
  acked : ℕ
  lastMs : ℕ
  deriving DecidableEq, Repr

def AckState.live (now : ℕ) (a : AckState) : Bool :=
  a.lastMs ≠ 0 && now - a.lastMs ≤ livenessWindowMs

/-- The hub of a master: its head, its replicas and the writers that wait. -/
structure ReplHub where
  lagSoftMs : ℕ
  lagHardMs : ℕ
  minReplicasToWrite : ℕ
  /-- Writes are shed once no replica has acknowledged for this long; `0` disables it. -/
  widowedGraceMs : ℕ
  /-- Writes are shed this far ahead of the slowest live replica; `0` disables it. -/
  walHeadroomShedSeq : ℕ
  quorumBelow : Bool
  nextId : ℕ
  lastAckMs : ℕ
  widowSinceMs : ℕ
  replicas : List (ℕ × AckState)
  samples : List (ℕ × ℕ)
  deriving DecidableEq, Repr

structure WriteLoad where
  inflight : ℕ
  costUs : ℕ
  serviceUs : ℕ
  /-- The deadline; `0` disables it. -/
  deadlineMs : ℕ
  deriving DecidableEq, Repr

def WriteLoad.projectedWaitMs (l : WriteLoad) : ℕ := min (l.inflight * l.costUs) (2 ^ 64 - 1) / 1000

namespace ReplHub

variable (h : ReplHub)

def new (lagSoftMs lagHardMs minReplicasToWrite : ℕ) : ReplHub where
  lagSoftMs
  lagHardMs := max lagHardMs lagSoftMs
  minReplicasToWrite
  widowedGraceMs := 0
  walHeadroomShedSeq := 4000000
  quorumBelow := false
  nextId := 1
  lastAckMs := 0
  widowSinceMs := 0
  replicas := []
  samples := []

def setLagSoftMs (v : ℕ) : ReplHub :=
  { h with lagSoftMs := v, lagHardMs := if h.lagHardMs < v then v else h.lagHardMs }

def setLagHardMs (v : ℕ) : ReplHub := { h with lagHardMs := max v h.lagSoftMs }

def registerReplica : ReplHub × ℕ := ({ h with nextId := h.nextId + 1 }, h.nextId)

def unregisterReplica (id : ℕ) : ReplHub :=
  { h with replicas := h.replicas.filter fun r => r.1 ≠ id }

def recordSample (seq now : ℕ) : ReplHub :=
  if h.samples.getLast?.any (seq ≤ ·.1) then h
  else
    let samples := h.samples ++ [(seq, now)]
    { h with samples := if maxSamples < samples.length then samples.tail else samples }

/-- The entry of a replica, raised to an acknowledgement; a new one starts at zero. -/
def raise (id seq now : ℕ) : List (ℕ × AckState) → List (ℕ × AckState)
  | [] => [(id, ⟨max 0 seq, max 0 now⟩)]
  | (i, a) :: rest =>
    if i = id then (i, ⟨max a.acked seq, max a.lastMs now⟩) :: rest
    else (i, a) :: raise id seq now rest

def recordAck (id seq now : ℕ) : ReplHub :=
  { h with replicas := raise id seq now h.replicas, lastAckMs := max h.lastAckMs now }

def liveCursors (now : ℕ) : List ℕ :=
  ((h.replicas.map Prod.snd).filter (AckState.live now)).map AckState.acked

def effectiveAcked (now : ℕ) : Option ℕ := (h.liveCursors now).max?

def minAckedLive (now : ℕ) : Option ℕ := (h.liveCursors now).min?

/-- **The lag of the freshest live replica**: the age of the first sample beyond its cursor. -/
def lagMs (now : ℕ) : Option ℕ :=
  (h.effectiveAcked now).map fun acked =>
    match h.samples.find? (acked < ·.1) with
    | some (_, ts) => now - ts
    | none => 0

/-! ## The gates of the write path -/

def belowWriteQuorum (now : ℕ) : Bool :=
  0 < h.minReplicasToWrite && (h.liveCursors now).length < h.minReplicasToWrite

/-- No replica has acknowledged for the whole grace; the first write asked about arms the clock. -/
def widowedBeyondGraceArming (now : ℕ) : ReplHub × Bool :=
  if h.widowedGraceMs = 0 then (h, false)
  else
    let basis := max h.lastAckMs h.widowSinceMs
    if basis = 0 then ({ h with widowSinceMs := now }, false)
    else (h, h.widowedGraceMs < now - basis)

def walHeadroomExhausted (latestSeq now : ℕ) : Bool :=
  h.walHeadroomShedSeq ≠ 0 &&
    ((h.minAckedLive now).map fun acked => latestSeq - acked).any (h.walHeadroomShedSeq ≤ ·)

/-- **The gates a write passes**, in order; the text of the first that refuses. -/
def admitWrite (now latestSeq : ℕ) (l : WriteLoad) : ReplHub × Option String :=
  let below := h.belowWriteQuorum now
  let h := { h with quorumBelow := below }
  if below then (h, some "THROTTLED live replicas below min-replicas-to-write, retry with backoff")
  else
    let (h, widowed) := h.widowedBeyondGraceArming now
    if widowed then
      (h, some ("THROTTLED no live replica for longer than --widowed-grace-ms, " ++
        "retry with backoff"))
    else if (h.lagMs now).any (h.lagHardMs ≤ ·) then
      (h, some "THROTTLED replication lag exceeds limit, retry with backoff")
    else if h.walHeadroomExhausted latestSeq now then
      (h, some "THROTTLED replica too far behind the retained WAL, retry with backoff")
    else if 0 < l.deadlineMs && l.deadlineMs < l.projectedWaitMs then
      (h, some (s!"THROTTLED write would wait ~{l.projectedWaitMs}ms (inflight {l.inflight} x " ++
        s!"cost {l.costUs}us; residency {l.serviceUs}us), past --write-deadline-ms " ++
        s!"{l.deadlineMs}, retry with backoff"))
    else (h, none)

/-! ## Runs -/

end ReplHub

inductive HubEvent
  | sample (seq now : ℕ)
  | register
  | ack (id seq now : ℕ)
  | disconnect (id : ℕ)
  | write (now latestSeq : ℕ) (l : WriteLoad)
  | promoted (now : ℕ)
  | setLagSoftMs (v : ℕ)
  | setLagHardMs (v : ℕ)
  | setMinReplicasToWrite (v : ℕ)
  | setWidowedGraceMs (v : ℕ)
  | setWalHeadroomShedSeq (v : ℕ)
  deriving DecidableEq, Repr

def HubEvent.sample? : HubEvent → Option (ℕ × ℕ)
  | sample seq now => some (seq, now)
  | _ => none

namespace ReplHub

def step (h : ReplHub) : HubEvent → ReplHub
  | .sample seq now => h.recordSample seq now
  | .register => h.registerReplica.1
  | .ack id seq now => h.recordAck id seq now
  | .disconnect id => h.unregisterReplica id
  | .write now latestSeq l => (h.admitWrite now latestSeq l).1
  | .promoted now => { h with widowSinceMs := now }
  | .setLagSoftMs v => h.setLagSoftMs v
  | .setLagHardMs v => h.setLagHardMs v
  | .setMinReplicasToWrite v => { h with minReplicasToWrite := v }
  | .setWidowedGraceMs v => { h with widowedGraceMs := v }
  | .setWalHeadroomShedSeq v => { h with walHeadroomShedSeq := v }

def run (h : ReplHub) (es : List HubEvent) : ReplHub := es.foldl step h

end ReplHub

def sampledIn (es : List HubEvent) : List (ℕ × ℕ) := es.filterMap HubEvent.sample?

def recordNew (out : List (ℕ × ℕ)) (p : ℕ × ℕ) : List (ℕ × ℕ) :=
  if out.getLast?.any (p.1 ≤ ·.1) then out else out ++ [p]

def newlyReached (ps : List (ℕ × ℕ)) : List (ℕ × ℕ) := ps.foldl recordNew []

def outstanding (acked : ℕ) (ps : List (ℕ × ℕ)) : List (ℕ × ℕ) :=
  (newlyReached ps).filter (acked < ·.1)

def InClockOrder (ps : List (ℕ × ℕ)) : Prop := ps.Pairwise (·.2 ≤ ·.2)

/-- **The ring still tells the oldest outstanding age**: it holds all outstanding samples, or one as
old as the oldest. -/
def RingReaches (now : ℕ) (out : List (ℕ × ℕ)) : Prop :=
  out.length ≤ maxSamples ∨
    ∀ p ∈ out.head?, ∀ q ∈ out[out.length - maxSamples]?, now - p.2 ≤ now - q.2

/-! ## The ring holds the newest samples -/

def ring (ps : List (ℕ × ℕ)) : List (ℕ × ℕ) := ps.drop (ps.length - maxSamples)

variable {ps : List (ℕ × ℕ)}

theorem getLast?_ring (ps : List (ℕ × ℕ)) : (ring ps).getLast? = ps.getLast? := by
  rw [ring, getLast?_drop]
  split
  · rename_i hle
    have hnil : ps = [] := length_eq_zero_iff.mp (by simp only [maxSamples] at hle; omega)
    rw [hnil, getLast?_nil]
  · rfl

theorem ring_concat (ps : List (ℕ × ℕ)) (p : ℕ × ℕ) : ring (ps ++ [p]) =
      if maxSamples < (ring ps ++ [p]).length then (ring ps ++ [p]).tail else ring ps ++ [p] := by
  have hpos : 0 < maxSamples := by decide
  have hlen : (ring ps ++ [p]).length = ps.length - (ps.length - maxSamples) + 1 := by simp [ring]
  rw [hlen]
  by_cases hfull : maxSamples ≤ ps.length
  · rw [if_pos (by omega)]
    have hne : ring ps ≠ [] := by
      intro hnil
      have := congrArg List.length hnil
      simp only [ring, length_drop, length_nil] at this
      omega
    have hcut : ps.length + 1 - maxSamples = ps.length - maxSamples + 1 := by omega
    rw [tail_append_of_ne_nil hne, ring, ring, tail_drop, length_append,
      length_singleton, hcut, drop_append_of_le_length (by omega)]
  rw [if_neg (by omega), ring, ring, length_append, length_singleton]
  have h : ps.length - maxSamples = 0 := by omega
  have h' : ps.length + 1 - maxSamples = 0 := by omega
  rw [h, h', drop_zero, drop_zero]

variable {h : ReplHub}

theorem ReplHub.samples_admitWrite (h : ReplHub) (now latestSeq : ℕ) (l : WriteLoad) :
    (h.admitWrite now latestSeq l).1.samples = h.samples := by
  have harm : ∀ h : ReplHub, (h.widowedBeyondGraceArming now).1.samples = h.samples := by
    intro h
    rw [ReplHub.widowedBeyondGraceArming]
    split
    · rfl
    · dsimp only
      split <;> rfl
  rw [ReplHub.admitWrite]
  split
  · rfl
  · dsimp only
    repeat' split
    all_goals exact harm _

namespace ReplHub

variable (hs : h.samples = ring ps)
include hs

theorem samples_recordSample (seq now : ℕ) :
    (h.recordSample seq now).samples = ring (recordNew ps (seq, now)) := by
  rw [ReplHub.recordSample, recordNew, hs, getLast?_ring]
  split
  · exact hs
  · rw [ring_concat]

theorem samples_step (e : HubEvent) :
    (h.step e).samples = ring (e.sample?.elim ps (recordNew ps)) := by
  cases e with
  | sample seq now => exact ReplHub.samples_recordSample hs seq now
  | write now latestSeq l => exact (h.samples_admitWrite now latestSeq l).trans hs
  | register | ack id seq now | disconnect id | promoted now | setLagSoftMs v | setLagHardMs v
  | _ => exact hs

theorem samples_run (es : List HubEvent) :
    (h.run es).samples = ring ((sampledIn es).foldl recordNew ps) := by
  induction es generalizing h ps with
  | nil => exact hs
  | cons e es ih =>
    have hrest := ih (ReplHub.samples_step hs e)
    cases hsample : e.sample? with
    | none =>
      rw [hsample] at hrest
      rw [sampledIn, filterMap_cons_none hsample]
      exact hrest
    | some p =>
      rw [hsample] at hrest
      rw [sampledIn, filterMap_cons_some hsample]
      exact hrest

end ReplHub

/-! ## Sequence numbers ascend -/

def Ascending (ps : List (ℕ × ℕ)) : Prop := ps.Pairwise (·.1 < ·.1)

section

variable (hp : Ascending ps)
include hp

theorem Ascending.le_getLast {p q : ℕ × ℕ} (hlast : ps.getLast? = some q)
    (hmem : p ∈ ps) : p.1 ≤ q.1 := by
  obtain ⟨init, rfl⟩ := getLast?_eq_some_iff.mp hlast
  rcases mem_append.mp hmem with hinit | hq
  · exact le_of_lt ((pairwise_append.mp hp).2.2 p hinit q (mem_singleton_self q))
  · exact le_of_eq (congrArg Prod.fst (mem_singleton.mp hq))

theorem Ascending.recordNew (p : ℕ × ℕ) : Ascending (recordNew ps p) := by
  rw [Flint.recordNew]
  split
  · exact hp
  rename_i hnew
  refine pairwise_append.mpr ⟨hp, pairwise_singleton _ _, fun q hq p' hp' => ?_⟩
  rw [mem_singleton.mp hp']
  cases hlast : ps.getLast? with
  | none => rw [getLast?_eq_none_iff.mp hlast] at hq; cases hq
  | some r =>
    rw [hlast] at hnew
    have hlt : r.1 < p.1 := by simpa using hnew
    exact lt_of_le_of_lt (hp.le_getLast hlast hq) hlt

omit hp in
theorem ascending_newlyReached (ps : List (ℕ × ℕ)) : Ascending (newlyReached ps) :=
  List.foldlRecOn ps recordNew List.Pairwise.nil fun _ hout p _ => hout.recordNew p

theorem Ascending.eq_append (acked : ℕ) :
    ps = ps.filter (fun p => !decide (acked < p.1)) ++ ps.filter (acked < ·.1) := by
  induction ps with
  | nil => rfl
  | cons p ps ih =>
    obtain ⟨hfirst, hrest⟩ := pairwise_cons.mp hp
    by_cases hlt : acked < p.1
    · have hall : ∀ q ∈ ps, acked < q.1 := fun q hq => hlt.trans (hfirst q hq)
      have hlo : ps.filter (fun q => !decide (acked < q.1)) = [] :=
        filter_eq_nil_iff.mpr fun q hq => by simp [hall q hq]
      have hhi : ps.filter (acked < ·.1) = ps :=
        filter_eq_self.mpr fun q hq => by simp [hall q hq]
      simp [hlt, hlo, hhi]
    · simp only [filter_cons, hlt, decide_false, Bool.not_false, if_true,
        Bool.false_eq_true, if_false, cons_append]
      exact congrArg _ (ih hrest)

theorem Ascending.find?_ring (acked : ℕ) :
    (ring ps).find? (acked < ·.1) = (ring (ps.filter (acked < ·.1))).head? := by
  rw [← head?_filter]
  have hlo : ∀ n, ((ps.filter fun p => !decide (acked < p.1)).drop n).filter (acked < ·.1) = [] :=
    fun n => filter_eq_nil_iff.mpr fun q hq => by
      simpa using (mem_filter.mp (mem_of_mem_drop hq)).2
  have hhi : ∀ n, ((ps.filter (acked < ·.1)).drop n).filter (acked < ·.1) =
      (ps.filter (acked < ·.1)).drop n := fun n => filter_eq_self.mpr fun q hq =>
    (mem_filter.mp (mem_of_mem_drop hq)).2
  have hlen := congrArg List.length (hp.eq_append acked)
  rw [length_append] at hlen
  rw [ring, ring]
  conv_lhs => rw [hp.eq_append acked]
  have hcut : ∀ m n : ℕ, m + n - maxSamples - m = n - maxSamples := fun m n => by omega
  rw [drop_append, filter_append, hlo, hhi, nil_append, length_append, hcut]

end

/-! ## Ages -/

theorem newlyReached_concat (ps : List (ℕ × ℕ)) (p : ℕ × ℕ) :
    newlyReached (ps ++ [p]) = recordNew (newlyReached ps) p :=
  foldl_concat _ _ _ _

theorem newlyReached_sublist (ps : List (ℕ × ℕ)) : (newlyReached ps).Sublist ps := by
  induction ps using List.reverseRecOn with
  | nil => exact List.Sublist.refl _
  | append_singleton ps p ih =>
    rw [newlyReached_concat, recordNew]
    split
    · exact ih.trans (sublist_append_left _ _)
    · exact ih.append (List.Sublist.refl _)

theorem outstanding_sublist (acked : ℕ) (ps : List (ℕ × ℕ)) : (outstanding acked ps).Sublist ps :=
  filter_sublist.trans (newlyReached_sublist ps)

variable {acked : ℕ}

theorem head?_ring (ps : List (ℕ × ℕ)) : (ring ps).head? = ps[ps.length - maxSamples]? := by
  rw [ring, head?_drop]

section

variable (hclock : InClockOrder ps)
include hclock

theorem exists_outstanding_le {p : ℕ × ℕ} (hp : p ∈ ps)
    (hlt : acked < p.1) : ∃ q ∈ outstanding acked ps, q.2 ≤ p.2 := by
  induction ps using List.reverseRecOn with
  | nil => cases hp
  | append_singleton ps r ih =>
    obtain ⟨hclock', -, hlast⟩ := pairwise_append.mp hclock
    rw [outstanding, newlyReached_concat, recordNew]
    rcases mem_append.mp hp with hold | hnew
    · obtain ⟨q, hq, hle⟩ := ih hclock' hold
      refine ⟨q, ?_, hle⟩
      split
      · exact hq
      · rw [filter_append]
        exact mem_append_left _ hq
    obtain rfl := mem_singleton.mp hnew
    split
    · -- dropped: the sample that shows its number already is no younger
      rename_i hseen
      obtain ⟨q, hq, hle⟩ := (any_eq_true _ _).mp hseen
      have hmem : q ∈ newlyReached ps := mem_of_getLast? hq
      refine ⟨q, mem_filter.mpr ⟨hmem, ?_⟩, ?_⟩
      · exact decide_eq_true (hlt.trans_le (of_decide_eq_true hle))
      · exact hlast q ((newlyReached_sublist ps).subset hmem) p (mem_singleton_self p)
    · refine ⟨p, mem_filter.mpr ⟨?_, decide_eq_true hlt⟩, le_rfl⟩
      exact mem_append_right _ (mem_singleton_self p)

theorem head_outstanding_le {p q : ℕ × ℕ}
    (hq : q ∈ (outstanding acked ps).head?) (hp : p ∈ ps) (hlt : acked < p.1) : q.2 ≤ p.2 := by
  obtain ⟨r, hr, hle⟩ := exists_outstanding_le hclock hp hlt
  have hsorted : InClockOrder (outstanding acked ps) := hclock.sublist (outstanding_sublist _ _)
  obtain ⟨rest, hout⟩ := head?_eq_some_iff.mp hq
  rw [hout] at hr hsorted
  rcases mem_cons.mp hr with rfl | hr
  · exact hle
  · exact ((pairwise_cons.mp hsorted).1 r hr).trans hle

theorem ages_le_iff {acked now : ℕ} : (∀ p ∈ ps, acked < p.1 →
      now - p.2 ≤ ((ring (outstanding acked ps)).head?.map fun q => now - q.2).getD 0) ↔
      RingReaches now (outstanding acked ps) := by
  rw [head?_ring]
  constructor
  · intro hall
    refine or_iff_not_imp_left.mpr fun hlong p hp q hq => ?_
    have hmem : p ∈ outstanding acked ps := mem_of_head? hp
    have hage := hall p ((outstanding_sublist _ _).subset hmem)
      (of_decide_eq_true (mem_filter.mp hmem).2)
    rw [mem_def.mp hq] at hage
    exact hage
  intro hreach p hp hlt
  obtain ⟨r, hr, -⟩ := exists_outstanding_le hclock hp hlt
  cases hhead : (outstanding acked ps).head? with
  | none => rw [head?_eq_none_iff.mp hhead] at hr; cases hr
  | some oldest =>
    have hle : oldest.2 ≤ p.2 := head_outstanding_le hclock hhead hp hlt
    have hpos : 0 < (outstanding acked ps).length := length_pos_of_mem hr
    have hbound : (outstanding acked ps).length - maxSamples < (outstanding acked ps).length := by
      have : 0 < maxSamples := by decide
      omega
    rw [getElem?_eq_getElem hbound, map_some, getD_some]
    rcases hreach with hshort | hsame
    · have hzero : (outstanding acked ps).length - maxSamples = 0 := by omega
      have hfirst : (outstanding acked ps)[(outstanding acked ps).length - maxSamples] =
          oldest := by
        apply some.inj
        rw [← getElem?_eq_getElem hbound, hzero, ← head?_eq_getElem?, hhead]
      rw [hfirst]
      omega
    · have hsame' := hsame oldest hhead _ (getElem?_eq_getElem hbound)
      omega

end

namespace ReplHub

theorem lagMs_run (soft hard minReplicas : ℕ) (es : List HubEvent) {now acked : ℕ}
    (hacked : ((new soft hard minReplicas).run es).effectiveAcked now = some acked) :
    ((new soft hard minReplicas).run es).lagMs now = some
      (((ring (outstanding acked (sampledIn es))).head?.map fun q => now - q.2).getD 0) := by
  have hempty : (new soft hard minReplicas).samples = ring [] := rfl
  have hsamples : ((new soft hard minReplicas).run es).samples =
      ring (newlyReached (sampledIn es)) := samples_run hempty es
  rw [lagMs, hacked, map_some, hsamples, (ascending_newlyReached _).find?_ring, outstanding]
  cases (ring ((newlyReached (sampledIn es)).filter (acked < ·.1))).head? <;> rfl

theorem lagMs_widowedBeyondGraceArming (h : ReplHub) (now now' : ℕ) :
    (h.widowedBeyondGraceArming now').1.lagMs now = h.lagMs now ∧
      (h.widowedBeyondGraceArming now').1.lagHardMs = h.lagHardMs := by
  rw [widowedBeyondGraceArming]
  split
  · exact ⟨rfl, rfl⟩
  · dsimp only
    split <;> exact ⟨rfl, rfl⟩

theorem admitWrite_of_hard_le (h : ReplHub) {now lag : ℕ} (hlag : h.lagMs now = some lag)
    (hle : h.lagHardMs ≤ lag) (latestSeq : ℕ) (l : WriteLoad) :
    (h.admitWrite now latestSeq l).2.isSome := by
  rw [admitWrite]
  split
  · rfl
  obtain ⟨hsame, hcap⟩ := lagMs_widowedBeyondGraceArming
    { h with quorumBelow := h.belowWriteQuorum now } now now
  have hshed : (({ h with quorumBelow := h.belowWriteQuorum now } : ReplHub
      ).widowedBeyondGraceArming now).1.lagMs now = some lag := hsame.trans hlag
  dsimp only
  split
  · rfl
  · rw [hshed, hcap, any_some, if_pos (decide_eq_true hle)]
    rfl

/-- **The loss bound.**  With samples taken in clock order, the lag is at least the age of every
sampled write the freshest live replica has not acknowledged exactly where the ring reaches; the
hard cap then sheds every write while one is that old. -/
theorem lag_bounds_loss_iff (soft hard minReplicas : ℕ) (es : List HubEvent)
    (hclock : InClockOrder (sampledIn es)) {now acked : ℕ}
    (hacked : ((new soft hard minReplicas).run es).effectiveAcked now = some acked) :
    ∃ lag, ((new soft hard minReplicas).run es).lagMs now = some lag ∧
      ((∀ p ∈ sampledIn es, acked < p.1 → now - p.2 ≤ lag) ↔
        RingReaches now (outstanding acked (sampledIn es))) ∧
      (RingReaches now (outstanding acked (sampledIn es)) →
        ∀ p ∈ sampledIn es, acked < p.1 →
          ((new soft hard minReplicas).run es).lagHardMs ≤ now - p.2 → ∀ latestSeq l,
            (((new soft hard minReplicas).run es).admitWrite now latestSeq l).2.isSome) := by
  have hlag := lagMs_run soft hard minReplicas es hacked
  refine ⟨_, hlag, ages_le_iff hclock, fun hreach p hp hlt hcap latestSeq l => ?_⟩
  exact admitWrite_of_hard_le _ hlag (hcap.trans ((ages_le_iff hclock).mpr hreach p hp hlt)) _ _

theorem lag_bounds_loss_two_samples :
    let es := [.register, .sample 10 1000, .sample 20 1400, .ack 1 10 1500]
    InClockOrder (sampledIn es) ∧ ((new 500 1000 0).run es).effectiveAcked 2400 = some 10 ∧
      ∃ lag, ((new 500 1000 0).run es).lagMs 2400 = some lag ∧
        ((∀ p ∈ sampledIn es, 10 < p.1 → 2400 - p.2 ≤ lag) ↔
          RingReaches 2400 (outstanding 10 (sampledIn es))) ∧
        (RingReaches 2400 (outstanding 10 (sampledIn es)) →
          ∀ p ∈ sampledIn es, 10 < p.1 → ((new 500 1000 0).run es).lagHardMs ≤ 2400 - p.2 →
            ∀ latestSeq l, (((new 500 1000 0).run es).admitWrite 2400 latestSeq l).2.isSome) := by
  have hclock : InClockOrder (sampledIn
      [.register, .sample 10 1000, .sample 20 1400, .ack 1 10 1500]) :=
    pairwise_pair.mpr (by decide)
  exact ⟨hclock, by decide, lag_bounds_loss_iff 500 1000 0 _ hclock (by decide)⟩

/-! ## A ring that turned past the oldest sample

One write is sampled and never acknowledged; a second later the master is sampled 512 more times,
once a millisecond. -/

theorem newlyReached_of_ascending (hp : Ascending ps) : newlyReached ps = ps := by
  induction ps using List.reverseRecOn with
  | nil => rfl
  | append_singleton ps p ih =>
    obtain ⟨hinit, -, hlast⟩ := pairwise_append.mp hp
    rw [newlyReached_concat, ih hinit, recordNew, if_neg]
    intro hseen
    obtain ⟨q, hq, hle⟩ := (any_eq_true _ _).mp hseen
    have hlt := hlast q (mem_of_getLast? hq) p (mem_singleton_self p)
    exact absurd (of_decide_eq_true hle) (Nat.not_le.mpr hlt)

theorem run_map_sample (h : ReplHub) (ps : List (ℕ × ℕ)) : h.run (ps.map fun p => .sample p.1 p.2) =
      { h with samples := (h.run (ps.map fun p => .sample p.1 p.2)).samples } := by
  induction ps generalizing h with
  | nil => rfl
  | cons p ps ih =>
    have hfirst : h.recordSample p.1 p.2 =
        { h with samples := (h.recordSample p.1 p.2).samples } := by
      rw [recordSample]
      split <;> rfl
    have hrest := ih (h.recordSample p.1 p.2)
    rw [hfirst] at hrest
    rw [map_cons, run, foldl_cons, step, hfirst]
    exact hrest

def busySamples : List (ℕ × ℕ) := (1, 1) :: (List.range 512).map fun k => (k + 2, 1001 + k)

def busyMaster : List HubEvent :=
  [.register, .ack 1 0 1000] ++ busySamples.map fun p => .sample p.1 p.2

theorem run_busyMaster : (new 500 1000 0).run busyMaster =
    { (new 500 1000 0).run [.register, .ack 1 0 1000] with samples := ring busySamples } := by
  have hascending : Ascending busySamples := by
    refine pairwise_cons.mpr ⟨by simp, pairwise_map.mpr ?_⟩
    exact pairwise_lt_range.imp fun h => Nat.add_lt_add_right h 2
  have hsampled : sampledIn (busySamples.map fun p => .sample p.1 p.2) = busySamples := by
    rw [sampledIn, filterMap_map]
    exact filterMap_some
  have hempty : ((new 500 1000 0).run [.register, .ack 1 0 1000]).samples = ring [] := rfl
  have hsamples := samples_run hempty (busySamples.map fun p => .sample p.1 p.2)
  rw [hsampled, ← newlyReached, newlyReached_of_ascending hascending] at hsamples
  rw [busyMaster, run, foldl_append, ← run, ← run, run_map_sample, hsamples]

/-- **The lag is half a second while the oldest sampled write has waited one and a half**, and a
write passes the hard cap of one second. -/
theorem lag_understated :
    let h := (new 500 1000 0).run busyMaster
    (1, 1) ∈ sampledIn busyMaster ∧ h.effectiveAcked 1512 = some 0 ∧ h.lagHardMs ≤ 1512 - 1 ∧
      h.lagMs 1512 = some 511 ∧ (h.admitWrite 1512 513 ⟨0, 0, 0, 0⟩).2 = none := by
  rw [run_busyMaster]
  decide +kernel

end ReplHub

end Flint
