import FlintCache.Repl.Apply
import FlintCache.Storage.Role

/-!
# Repl/Tailer — the tailing thread against promotions, demotions and client writes

A tailing thread reads frames off the upstream's socket, several at a time, and looks at its stop
flag only when the buffer is drained and at the top of its reconnect loop.  A promotion writes the
durable role, raises the flag and opens the node for writes; it does not wait for the thread.
-/

namespace Flint

open Machine.Reach
open Option

variable {κ ν : Type} [DecidableEq κ]

/-! ## The two threads -/

inductive UpFrame (κ ν : Type)
  /-- `FLINTSYNC-OK`: the cursor the upstream streams from, and its role epoch. -/
  | syncOk (cursor : Option ℕ) (epoch : Option Epoch)
  | walGap (why : String)
  | error (why : String)
  | batch (b : ReplBatch κ ν)
  | malformed

/-- Where the tailer is. -/
inductive TailerPc (κ ν : Type)
  /-- At the top of the reconnect loop, about to look at the stop flag. -/
  | run
  | connect
  | decode
  | handle (f : UpFrame κ ν)
  /-- Inside the apply, between the batch's write and the index entry's. -/
  | index
  | read
  | stopped
  /-- The thread took the whole process down to have its copy seeded afresh. -/
  | exited

def TailerPc.holding : TailerPc κ ν → Bool
  | handle _ => true
  | _ => false

def TailerPc.reading : TailerPc κ ν → Bool
  | read => true
  | _ => false

/-- A role command on its way: what it read before it takes the transition lock. -/
inductive RoleCommand
  | promote (epoch : Epoch)
  | demote (epoch : Epoch) (ownAtDemote : ℕ)
  deriving DecidableEq, Repr

def RoleCommand.claim : RoleCommand → RoleClaim
  | promote epoch => ⟨.master, epoch⟩
  | demote epoch _ => ⟨.replica, epoch⟩

structure Transition where
  command : RoleCommand
  ran : Bool
  deriving DecidableEq, Repr

/-- A replica with its tailer and the role changes beside it. -/
structure Seat (κ ν : Type) where
  replica : Replica κ ν
  role : Option RoleClaim
  fences : List PromoFence
  readOnly : Bool
  stop : Bool
  repoint : Bool
  pc : TailerPc κ ν
  buf : List (UpFrame κ ν)
  accepted : Bool
  moved : Bool
  commands : List RoleCommand
  transition : Option Transition
  resets : List ℕ
  /-- Client writes past the read-only check, not yet in the store. -/
  pending : List (ReplOp κ ν)
  openRows : Rows κ ν
  stored : List (ReplOp κ ν)
  /-- A socket read that was under way when writes opened has not returned yet. -/
  readAtOpening : Bool
  /-- The upstream's batches applied while client writes were accepted. -/
  late : List (ReplBatch κ ν)

inductive ReadResult (κ ν : Type)
  | frames (fs : List (UpFrame κ ν))
  | timeout
  | closed

inductive Start (κ ν : Type)
  /-- On its own store, with or without an upstream on the command line. -/
  | own (replicaOf : Bool)
  /-- With an upstream, on a copy seeded from it: store, role epoch and fences. -/
  | seeded (replica : Replica κ ν) (epoch : Epoch) (fences : List PromoFence)

/-- One step of the tailer or of a role change. -/
inductive SeatEvent (κ ν : Type)
  /-- The tailing thread takes its next step; the socket or the engine may fail it. -/
  | tailer (failure : Option String)
  | received (r : ReadResult κ ν)
  | promote (epoch : Epoch)
  | demote (epoch : Epoch)
  | commitRole (i : ℕ)
  | beforeFlip
  | flip
  /-- A finished demotion writes its cursor, rounded up to the end of a batch. -/
  | resetCursor (i snapped : ℕ)
  | follow
  | selfFence
  | enter (op : ReplOp κ ν)
  | store (i : ℕ)
  | restart (how : Start κ ν)

namespace Seat

/-- The frame loop ended.  A purged span takes the process down, unless stopped or moved. -/
def tailEnded (s : Seat κ ν) : TailError → Seat κ ν
  | .walPurged _ => { s with pc := if s.stop || s.moved then .run else .exited }
  | .transient _ => { s with pc := .run }

/-- The upstream's acceptance: on the first one of a connection adopt its cursor, and its epoch if
that is newer, in one write. -/
def adopt (s : Seat κ ν) (cursor : Option ℕ) (epoch : Option Epoch) : Seat κ ν :=
  if s.accepted then { s with pc := .decode }
  else
    { s with
      replica := { s.replica with lastApplied := cursor.getD s.replica.lastApplied }
      role :=
        match s.role, epoch with
        | some mine, some e => if mine.epoch < e then some ⟨.replica, e⟩ else s.role
        | _, _ => s.role
      accepted := true
      pc := .decode }

def handleFrame (s : Seat κ ν) : UpFrame κ ν → Seat κ ν
  | .syncOk cursor epoch => s.adopt cursor epoch
  | .walGap why => s.tailEnded (.walPurged why)
  | .error why => s.tailEnded (.transient s!"master error: {why}")
  | .malformed => s.tailEnded (.transient "malformed replication frame")
  | .batch b =>
    match s.replica.tailFrame b with
    | .error e => s.tailEnded e
    | .ok r =>
      { s with
        replica := r
        pc := .index
        late := if s.readOnly then s.late else s.late ++ [b] }

def tailer (s : Seat κ ν) (failure : Option String) : Option (Seat κ ν) :=
  match s.pc, failure with
  | .run, _ =>
    if s.stop then some { s with pc := .stopped }
    else some { s with moved := s.repoint, repoint := false, pc := .connect }
  | .connect, none => some { s with buf := [], accepted := false, pc := .decode }
  | .decode, none =>
    match s.buf with
    | f :: buf => some { s with buf, pc := .handle f }
    | [] =>
      -- nothing left to decode: the only place in this loop that looks at the flags
      if s.stop || s.repoint then some { s with pc := .run }
      else some { s with pc := .read }
  | .handle f, none => some (s.handleFrame f)
  | .connect, some why | .decode, some why | .handle _, some why =>
    some (s.tailEnded (.transient why))
  | .index, _ => some { s with replica := s.replica.putIndex, pc := .decode }
  | .read, _ | .stopped, _ | .exited, _ => none

def received (s : Seat κ ν) : ReadResult κ ν → Seat κ ν
  | .frames fs => { s with buf := s.buf ++ fs, pc := .decode, readAtOpening := false }
  | .timeout => { s with pc := .decode, readAtOpening := false }
  | .closed => { s with readAtOpening := false }.tailEnded (.transient "master closed")

/-- The flag is set to match the role; writes that open start from the rows as they are. -/
def flipTo (s : Seat κ ν) (readOnly : Bool) : Seat κ ν :=
  if readOnly then { s with readOnly := true }
  else
    { s with
      readOnly := false
      openRows := s.replica.rows
      stored := []
      readAtOpening := s.pc.reading }

/-- A start of the process: the durable role decides, whatever the command line says. -/
def boot (s : Seat κ ν) (how : Start κ ν) : Seat κ ν :=
  let replica := match how with
    | .own _ => { s.replica with indexDue := none }
    | .seeded r _ _ => r
  let role := match how with
    | .own _ => s.role
    | .seeded _ epoch _ => some ⟨.replica, epoch⟩
  let replicaOf := match how with
    | .own replicaOf => replicaOf
    | .seeded _ _ _ => true
  { replica, role
    fences := match how with
      | .own _ => s.fences
      | .seeded _ _ fences => fences
    readOnly := role.elim replicaOf fun c => c.role = .replica
    stop := replicaOf && role.any fun c => c.role = .master
    repoint := false
    pc := if replicaOf then .run else .stopped
    buf := []
    accepted := false
    moved := false
    commands := []
    transition := none
    resets := []
    pending := []
    openRows := replica.rows
    stored := []
    readAtOpening := false
    late := s.late }

def act (s : Seat κ ν) : SeatEvent κ ν → Option (Seat κ ν)
  | .tailer failure => s.tailer failure
  | .received r =>
    match s.pc with
    | .read => some (s.received r)
    | _ => none
  | .promote epoch =>
    some { s with
      fences := recordPromoFence s.fences epoch (roleEpoch s.role) s.replica.lastApplied
      commands := s.commands ++ [.promote epoch] }
  | .demote epoch => some { s with commands := s.commands ++ [.demote epoch s.replica.latestSeq] }
  | .commitRole i =>
    match s.transition, s.commands[i]? with
    | none, some c =>
      match setRole s.role c.claim with
      | .error _ => some { s with commands := s.commands.eraseIdx i }
      | .ok claim =>
        some { s with
          role := some claim
          commands := s.commands.eraseIdx i
          transition := some ⟨c, false⟩ }
    | _, _ => none
  | .beforeFlip =>
    match s.transition with
    | some ⟨.promote epoch, false⟩ =>
      some { s with stop := true, transition := some ⟨.promote epoch, true⟩ }
    | some ⟨.demote epoch own, false⟩ =>
        some { s with transition := some ⟨.demote epoch own, true⟩ }
    | _ => none
  | .flip =>
    match s.transition with
    | some ⟨.promote _, true⟩ => some ({ s with transition := none }.flipTo false)
    | some ⟨.demote _ own, true⟩ =>
      some ({ s with transition := none, resets := s.resets ++ [own] }.flipTo true)
    | _ => none
  | .resetCursor i snapped =>
    match s.resets[i]? with
    | some own =>
      if own ≤ snapped then
        some { s with
          replica := { s.replica with lastApplied := snapped }
          resets := s.resets.eraseIdx i }
      else none
    | none => none
  | .follow => if s.readOnly then some { s with repoint := true } else none
  | .selfFence => some { s with readOnly := true }
  | .enter op => if s.readOnly then none else some { s with pending := s.pending ++ [op] }
  | .store i =>
    match s.pending[i]? with
    | some op =>
      some { s with
        replica := { s.replica with
          rows := op.apply s.replica.rows
          latestSeq := s.replica.latestSeq + 1 }
        pending := s.pending.eraseIdx i
        stored := s.stored ++ [op] }
    | none => none
  | .restart how => some (s.boot how)

def step (s : Seat κ ν) (e : SeatEvent κ ν) : Option (Seat κ ν) :=
  match s.pc, e with
  | .exited, .restart how => s.act (.restart how)
  | .exited, _ => none
  | _, e => s.act e

end Seat

def seatMachine : Machine (Seat κ ν) (SeatEvent κ ν) where
  init s := s.late = [] ∧ ∃ how, s = s.boot how
  step := Seat.step

/-! ## When a promotion is clean -/

/-- **The thread holds nothing when writes open**: no frame is buffered or decoded at the flip, and
a read under way then brings none. -/
def Seat.Drained (s : Seat κ ν) : SeatEvent κ ν → Prop
  | .flip => s.transition.any (fun t => t.command.claim.role = .master) →
      s.buf = [] ∧ s.pc.holding = false
  | .received (.frames fs) => s.readOnly = false → s.readAtOpening = true → fs = []
  | _ => True

instance (s : Seat κ ν) (e : SeatEvent κ ν) : Decidable (s.Drained e) := by
  unfold Seat.Drained
  split <;> infer_instance

structure Seat.Clean (s : Seat κ ν) : Prop where
  late : s.late = []
  /-- While they are, the rows are those at the opening with the client writes on top… -/
  rows : s.readOnly = false → s.replica.rows = replay s.stored s.openRows
  drained : s.readOnly = false → s.buf = [] ∧ s.pc.holding = false
  /-- No read begins on an open node: the stop flag is up. -/
  reading : s.readOnly = false → s.pc.reading = true → s.readAtOpening = true
  stopping : s.readOnly = false → s.stop = true ∨ s.pc = .stopped
  raised : ∀ epoch, s.transition = some ⟨.promote epoch, true⟩ → s.stop = true

open Seat

namespace Seat.Clean

variable {s s' : Seat κ ν}

theorem of_readOnly (hlate : s.late = []) (hro : s.readOnly)
    (hraised : ∀ epoch, s.transition = some ⟨.promote epoch, true⟩ → s.stop) : s.Clean where
  late := hlate
  rows h := absurd (hro.symm.trans h) (by decide)
  drained h := absurd (hro.symm.trans h) (by decide)
  reading h := absurd (hro.symm.trans h) (by decide)
  stopping h := absurd (hro.symm.trans h) (by decide)
  raised := hraised

section

variable (hs : s.Clean)
include hs

theorem readOnly_of_holds (h : s.buf ≠ [] ∨ s.pc.holding) : s.readOnly := by
  by_contra hopen
  obtain ⟨hbuf, hpc⟩ := hs.drained (Bool.not_eq_true _ ▸ hopen)
  rcases h with h | h
  · exact h hbuf
  · simp [hpc] at h

theorem goto (hpc : s.pc ≠ .stopped) {pc : TailerPc κ ν} (h : pc.holding = false)
    (hread : pc.reading = false) : Clean { s with pc := pc } where
  __ := hs
  drained ho := ⟨(hs.drained ho).1, h⟩
  reading _ hr := absurd (hread.symm.trans hr) Bool.false_ne_true
  stopping ho := .inl ((hs.stopping ho).resolve_right hpc)

theorem tailEnded (hpc : s.pc ≠ .stopped) (e : TailError) : (s.tailEnded e).Clean := by
  cases e with
  | transient => exact hs.goto hpc rfl rfl
  | walPurged => exact hs.goto hpc (by split <;> rfl) (by split <;> rfl)

theorem handleFrame {f : UpFrame κ ν} (hpc : s.pc = .handle f) : (s.handleFrame f).Clean := by
  have hro : s.readOnly := hs.readOnly_of_holds (.inr (by rw [hpc]; rfl))
  have hne : s.pc ≠ .stopped := by simp [hpc]
  cases f with
  | syncOk cursor epoch =>
    change (s.adopt cursor epoch).Clean
    unfold adopt
    split
    · exact hs.goto hne rfl rfl
    · exact of_readOnly hs.late hro hs.raised
  | walGap why => exact hs.tailEnded hne (.walPurged why)
  | error why => exact hs.tailEnded hne (.transient s!"master error: {why}")
  | malformed => exact hs.tailEnded hne (.transient "malformed replication frame")
  | batch b =>
    rw [Seat.handleFrame]
    split
    · exact hs.tailEnded hne _
    · exact of_readOnly (by simpa [hro] using hs.late) hro hs.raised

theorem tailer {failure : Option String} (h : s.tailer failure = some s') : s'.Clean := by
  have hne : s.pc ≠ .stopped := fun hpc => by simp [Seat.tailer, hpc] at h
  have hstop (ho) := (hs.stopping ho).resolve_right hne
  cases hpc : s.pc with
  | run =>
    simp only [Seat.tailer, hpc] at h
    split at h <;> cases h
    · next hset =>
      exact ⟨hs.late, hs.rows, fun ho => ⟨(hs.drained ho).1, rfl⟩,
          fun _ => nofun, fun _ => .inl hset,
        hs.raised⟩
    · exact ⟨hs.late, hs.rows, fun ho => ⟨(hs.drained ho).1, rfl⟩, fun _ => nofun,
        fun ho => .inl (hstop ho), hs.raised⟩
  | connect =>
    cases failure <;> simp only [Seat.tailer, hpc] at h <;> cases h
    · exact ⟨hs.late, hs.rows, fun _ => ⟨rfl, rfl⟩, fun _ => nofun, fun ho => .inl (hstop ho),
        hs.raised⟩
    · exact hs.tailEnded hne _
  | decode =>
    cases failure with
    | some why =>
      simp only [Seat.tailer, hpc] at h
      cases h
      exact hs.tailEnded hne _
    | none =>
      simp only [Seat.tailer, hpc] at h
      split at h
      · rename_i f buf hbuf
        cases h
        -- a frame was buffered, so the node is closed
        exact of_readOnly hs.late (hs.readOnly_of_holds (.inl (by simp [hbuf]))) hs.raised
      · split at h
        · cases h
          exact hs.goto hne rfl rfl
        · next hflags =>
          cases h
          rw [Bool.or_eq_true, not_or] at hflags
          -- the flag is down, so the node is closed
          refine of_readOnly hs.late ?_ hs.raised
          by_contra hopen
          exact hflags.1 (hstop (Bool.not_eq_true _ ▸ hopen))
  | handle f =>
    cases failure <;> simp only [Seat.tailer, hpc] at h <;> cases h
    · exact hs.handleFrame hpc
    · exact hs.tailEnded hne _
  | index =>
    simp only [Seat.tailer, hpc] at h
    cases h
    refine ⟨hs.late, fun ho => ?_, fun ho => ⟨(hs.drained ho).1, rfl⟩, fun _ => nofun,
      fun ho => .inl (hstop ho), hs.raised⟩
    exact s.replica.putIndex_spec.1.trans (hs.rows ho)
  | _ => simp [Seat.tailer, hpc] at h

theorem received (hpc : s.pc = .read) (r : ReadResult κ ν)
    (hok : s.Drained (.received r)) : (s.received r).Clean := by
  have hne : s.pc ≠ .stopped := by simp [hpc]
  have hstop (ho) := (hs.stopping ho).resolve_right hne
  cases r with
  | timeout =>
    exact ⟨hs.late, hs.rows, fun ho => ⟨(hs.drained ho).1, rfl⟩, fun _ => nofun,
      fun ho => .inl (hstop ho), hs.raised⟩
  | closed =>
    exact ⟨hs.late, hs.rows, fun ho => ⟨(hs.drained ho).1, rfl⟩, fun _ => nofun,
      fun ho => .inl (hstop ho), hs.raised⟩
  | frames fs =>
    refine ⟨hs.late, hs.rows, fun ho => ⟨?_, rfl⟩, fun _ => nofun, fun ho => .inl (hstop ho),
      hs.raised⟩
    have hbegun : s.readAtOpening = true := hs.reading ho (by rw [hpc]; rfl)
    exact List.append_eq_nil_iff.mpr ⟨(hs.drained ho).1, hok ho hbegun⟩

end

theorem boot (hlate : s.late = []) (how : Start κ ν) : (s.boot how).Clean where
  late := hlate
  rows _ := rfl
  drained _ := by
    refine ⟨rfl, ?_⟩
    cases how with
    | seeded r epoch fences => rfl
    | own replicaOf => cases replicaOf <;> rfl
  reading _ hr := by
    cases how with
    | seeded r epoch fences => cases hr
    | own replicaOf => cases replicaOf <;> cases hr
  stopping ho := by
    cases how with
    | seeded r epoch fences => simp [Seat.boot] at ho
    | own replicaOf =>
      cases replicaOf with
      | false => exact .inr rfl
      | true =>
        refine .inl ?_
        cases hrole : s.role with
        | none => simp [Seat.boot, hrole] at ho
        | some c => cases hc : c.role <;> simp_all [Seat.boot]
  raised _ h := by cases h

variable {e : SeatEvent κ ν}

theorem act (hs : s.Clean) (hok : s.Drained e) (h : s.act e = some s') : s'.Clean := by
  cases e with
  | tailer failure => exact hs.tailer h
  | received r =>
    simp only [act] at h
    split at h
    · next hpc => exact some.inj h ▸ hs.received hpc r hok
    · cases h
  | commitRole i =>
    simp only [act] at h
    split at h
    · rename_i c hnone hc
      split at h <;> cases h
      · exact { hs with }
      · exact { hs with raised := fun epoch ht => by simp at ht }
    · cases h
  | beforeFlip =>
    simp only [act] at h
    split at h
    · cases h
      exact ⟨hs.late, hs.rows, hs.drained, hs.reading, fun _ => .inl rfl, fun _ _ => rfl⟩
    · cases h
      exact { hs with raised := fun epoch ht => by simp at ht }
    · cases h
  | flip =>
    simp only [act] at h
    split at h
    · rename_i epoch ht
      cases h
      have hdrained := hok (by simp [ht, RoleCommand.claim])
      exact ⟨hs.late, fun _ => rfl, fun _ => hdrained, fun _ => id,
        fun _ => .inl (hs.raised epoch ht), fun _ h => by simp [flipTo] at h⟩
    · cases h
      exact of_readOnly hs.late rfl fun _ h => by simp [flipTo] at h
    · cases h
  | resetCursor i snapped =>
    simp only [act] at h
    split at h
    · obtain ⟨-, ⟨⟩⟩ := ite_none_right_eq_some.mp h
      exact { hs with }
    · cases h
  | follow =>
    obtain ⟨hro, ⟨⟩⟩ := ite_none_right_eq_some.mp h
    exact of_readOnly hs.late hro hs.raised
  | selfFence =>
    cases h
    exact of_readOnly hs.late rfl hs.raised
  | enter op =>
    obtain ⟨-, ⟨⟩⟩ := ite_none_left_eq_some.mp h
    exact { hs with }
  | store i =>
    simp only [act] at h
    split at h
    · rename_i op hop
      cases h
      refine { hs with rows := fun ho => ?_ }
      change op.apply s.replica.rows = replay (s.stored ++ [op]) s.openRows
      rw [hs.rows ho, replay_append]
      rfl
    · cases h
  | restart how =>
    cases h
    exact boot hs.late how
  | _ =>
    cases h
    exact { hs with }

end Seat.Clean

theorem Seat.act_of_step {s s' : Seat κ ν} (h : s.step e = some s') : s.act e = some s' := by
  unfold step at h
  split at h
  · exact h
  · cases h
  · exact h

/-- **No upstream batch is applied to an open node.**  Where promotions find the tailing thread
drained, and a read it is in brings nothing, no batch of the upstream is applied while writes are
open, for the stop flag keeps the thread from reading on; and an open node's rows are those at its
opening with exactly the client writes since on top. -/
theorem Seat.no_late_apply {s : Seat κ ν} (h : seatMachine.Reach Seat.Drained s) :
    s.late = [] ∧ (s.readOnly = false → s.replica.rows = replay s.stored s.openRows) := by
  have hs : s.Clean := by
    refine invariant ?_ (fun _ _ _ _ hs hok hst => hs.act hok (act_of_step hst)) h
    rintro t ⟨hlate, how, ht⟩
    rw [ht]
    exact .boot hlate how
  exact ⟨hs.late, hs.rows⟩

def Seat.fresh : Seat Bytes Bytes :=
  boot ⟨⟨fun _ => none, 0, fun _ => none, 0, none⟩, some ⟨.replica, ⟨0, 1⟩⟩, [], true, false, false,
    .stopped, [], false, false, [], none, [], [], fun _ => none, [], false, []⟩ (.own true)

theorem Seat.no_late_apply_quiet_promotion :
    let run : List (SeatEvent Bytes Bytes) := [.tailer none, .tailer none, .tailer none,
      .received (.frames [.syncOk (some 0) (some ⟨0, 1⟩), .batch ⟨1, 1, [.put [1] [1]]⟩]),
      .tailer none, .tailer none, .tailer none, .tailer none, .tailer none, .tailer none,
      .promote ⟨0, 2⟩, .commitRole 0, .beforeFlip, .flip, .enter (.put [1] [9]), .store 0,
      .received .timeout, .tailer none, .tailer none]
    ∃ s, seatMachine.exec Seat.fresh run = some s ∧ s.readOnly = false ∧ s.pc = .stopped ∧
      s.replica.rows [1] = some [9] ∧ s.late = [] := by
  intro run
  have hrun : seatMachine.exec fresh run = some _ := rfl
  have hguard : seatMachine.Guarded Seat.Drained fresh run := by decide
  refine ⟨_, rfl, rfl, rfl, by decide, (no_late_apply ?_).1⟩
  exact of_exec (.init ⟨rfl, .own true, rfl⟩) hguard hrun

/-- **A buffered frame undoes a client's write.**  The frame arrives in one read with its
acceptance; the promotion and the client's write fall between the two. -/
theorem Seat.applies_after_open :
    let run : List (SeatEvent Bytes Bytes) := [.tailer none, .tailer none, .tailer none,
      .received (.frames [.syncOk (some 0) (some ⟨0, 1⟩), .batch ⟨1, 1, [.put [1] [1]]⟩]),
      .tailer none, .tailer none, .promote ⟨0, 2⟩, .commitRole 0, .beforeFlip, .flip,
      .enter (.put [1] [9]), .store 0, .tailer none, .tailer none]
    ∃ s, seatMachine.exec Seat.fresh run = some s ∧ seatMachine.Reachable s ∧
      s.readOnly = false ∧ s.late = [⟨1, 1, [.put [1] [1]]⟩] ∧ s.stored = [.put [1] [9]] ∧
      s.replica.rows [1] = some [1] := by
  intro run
  have hrun : seatMachine.exec fresh run = some _ := rfl
  exact ⟨_, rfl, Machine.reachable_of_exec _ ⟨rfl, .own true, rfl⟩ hrun, rfl, rfl, rfl, by decide⟩

end Flint
