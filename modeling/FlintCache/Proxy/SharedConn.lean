import FlintCache.Lib.Machine

/-!
# Proxy/SharedConn — replies on a shared connection

The tasks of a proxy's worker share one connection to a node.  A caller stages its frame and a slot
for the reply together; a flush takes all that is staged and writes it under a lock that is granted
in order; the reader hands each reply to the oldest slot.  Nothing but position tells whose reply it
is.
-/

namespace Flint

open List Option

/-- A connection.  Frames are numbered as they are staged, and a slot is known by its frame.  On the
wire `none` is a part of a frame. -/
structure SharedConn where
  next : ℕ
  staged : List ℕ
  /-- What flushes have taken and not yet written, in the order of the lock. -/
  flushes : List (List ℕ)
  wire : List (Option ℕ)
  replies : List ℕ
  pending : List ℕ
  dead : Bool
  broken : Bool
  gone : List ℕ
  heard : List (ℕ × Option ℕ)

/-- One step of a caller, of a flush, of the reader or of the node. -/
inductive ConnEvent
  | stage
  | flush
  /-- One more frame of the flush that has the lock, or the end of it. -/
  | write
  | breakSocket
  | answer
  | read
  | lose
  | timeout (n : ℕ)
  | retire
  | dropCaller (n : ℕ)
  /-- A task is dropped in its flush, perhaps with a frame half written, and the callers that were
  its own with it. -/
  | dropFlush (i : ℕ) (torn : Bool) (callers : List ℕ)

namespace SharedConn

def fresh : SharedConn := ⟨0, [], [], [], [], [], false, false, [], []⟩

def close (s : SharedConn) : SharedConn :=
  { s with
    dead := true
    pending := []
    heard := s.heard ++ (s.pending.filter fun n => n ∉ s.gone).map fun n => (n, none) }

/-- A slot is handed a reply; the send to a caller that is gone does nothing. -/
def hand (s : SharedConn) (n r : ℕ) : List (ℕ × Option ℕ) :=
  if n ∈ s.gone then s.heard else s.heard ++ [(n, some r)]

def step (s : SharedConn) : ConnEvent → Option SharedConn
  | .stage =>
    if s.dead then some s
    else some { s with
      next := s.next + 1, staged := s.staged ++ [s.next], pending := s.pending ++ [s.next] }
  | .flush =>
    if s.staged.isEmpty then some s
    else some { s with staged := [], flushes := s.flushes ++ [s.staged] }
  | .write =>
    match s.flushes with
    | [] => none
    | [] :: rest => some { s with flushes := rest }
    | (n :: buf) :: rest =>
      if s.broken then some { s with flushes := rest }
      else some { s with wire := s.wire ++ [some n], flushes := buf :: rest }
  | .breakSocket => some { s with broken := true }
  | .answer =>
    match s.wire with
    | some n :: rest => some { s with wire := rest, replies := s.replies ++ [n] }
    | _ => none
  | .read =>
    if s.dead then none
    else
      match s.replies, s.pending with
      | [], _ => none
      | _ :: _, [] => some s.close
      | r :: replies, n :: pending =>
        some { s with replies := replies, pending := pending, heard := s.hand n r }
  | .lose => some s.close
  | .timeout n => if n ∈ s.pending ∧ n ∉ s.gone then some s.close else none
  | .retire => some s.close
  | .dropCaller n => some { s with gone := n :: s.gone }
  | .dropFlush i torn callers =>
    if i < s.flushes.length then
      some { s with
        flushes := s.flushes.eraseIdx i
        wire := if torn && i = 0 then s.wire ++ [none] else s.wire
        gone := callers ++ s.gone }
    else none

end SharedConn

def sharedConn : Machine SharedConn ConnEvent where
  init s := s = .fresh
  step := SharedConn.step

def ConnEvent.keepsFlush : ConnEvent → Bool
  | .dropFlush _ _ _ => false
  | _ => true

namespace SharedConn

variable {s : SharedConn}

def unwritten (s : SharedConn) : List ℕ := s.flushes.flatten ++ s.staged

/-- **Slots and frames are in step**: the slots are, in order, those of the replies sent, of the
frames on the wire, and of what is still to be written, unless the socket takes no more. -/
def Aligned (s : SharedConn) : Prop :=
  ∃ rest, s.pending.map some = s.replies.map some ++ (s.wire ++ rest) ∧
    (s.broken = false → rest = s.unwritten.map some)

namespace Aligned

section

variable (h : s.Aligned)
include h

theorem stage : Aligned { s with
      next := s.next + 1, staged := s.staged ++ [s.next], pending := s.pending ++ [s.next] } := by
  obtain ⟨rest, hslots, hrest⟩ := h
  refine ⟨rest ++ [some s.next], ?_, fun hb => ?_⟩
  · show (s.pending ++ [s.next]).map some = _
    rw [map_append, hslots]
    simp
  · show rest ++ [some s.next] = (s.flushes.flatten ++ (s.staged ++ [s.next])).map some
    rw [hrest hb, unwritten]
    simp

theorem of_unwritten {staged : List ℕ} {flushes : List (List ℕ)}
    (heq : s.unwritten = unwritten { s with staged := staged, flushes := flushes }) :
    Aligned { s with staged := staged, flushes := flushes } := by
  obtain ⟨rest, hslots, hrest⟩ := h
  exact ⟨rest, hslots, fun hb => (hrest hb).trans (congrArg (List.map some) heq)⟩

theorem write (hbroken : s.broken = false) {n : ℕ} {buf : List ℕ}
    {rest : List (List ℕ)} (hflushes : s.flushes = (n :: buf) :: rest) :
    Aligned { s with wire := s.wire ++ [some n], flushes := buf :: rest } := by
  obtain ⟨left, hslots, hleft⟩ := h
  have hunwritten : left = some n :: (buf ++ (rest.flatten ++ s.staged)).map some := by
    rw [hleft hbroken, unwritten, hflushes]
    simp
  refine ⟨(buf ++ (rest.flatten ++ s.staged)).map some, ?_, fun _ => ?_⟩
  · show s.pending.map some = _
    rw [hslots, hunwritten]
    simp
  · unfold unwritten
    simp

theorem answer {n : ℕ} {wire : List (Option ℕ)} (hwire : s.wire = some n :: wire) :
    Aligned { s with wire := wire, replies := s.replies ++ [n] } := by
  obtain ⟨rest, hslots, hrest⟩ := h
  refine ⟨rest, ?_, hrest⟩
  show s.pending.map some = _
  rw [hslots, hwire]
  simp

end

end Aligned

def Accounted (s : SharedConn) (n : ℕ) : Prop := n ∈ s.gone ∨ n ∈ s.pending ∨ ∃ o, (n, o) ∈ s.heard

structure Sound (s : SharedConn) : Prop where
  aligned : s.dead = false → s.Aligned
  told : s.dead = true → s.pending = []
  own : ∀ n r, (n, some r) ∈ s.heard → r = n
  accounted : ∀ n < s.next, s.Accounted n

theorem Sound.close (h : s.Sound) : s.close.Sound := by
  refine ⟨nofun, fun _ => rfl, fun n r hmem => ?_, fun n hn => ?_⟩
  · rcases mem_append.mp hmem with hold | hnew
    · exact h.own n r hold
    · obtain ⟨m, -, heq⟩ := mem_map.mp hnew
      cases heq
  rcases h.accounted n hn with hgone | hpending | ⟨o, ho⟩
  · exact .inl hgone
  · by_cases hgone : n ∈ s.gone
    · exact .inl hgone
    · refine .inr (.inr ⟨none, mem_append_right _ (mem_map.mpr ⟨n, ?_, rfl⟩)⟩)
      exact mem_filter.mpr ⟨hpending, decide_eq_true hgone⟩
  · exact .inr (.inr ⟨o, mem_append_left _ ho⟩)

theorem Sound.read (h : s.Sound) (hdead : s.dead = false) {r n : ℕ} {replies pending : List ℕ}
    (hr : s.replies = r :: replies) (hp : s.pending = n :: pending) :
    Sound { s with replies := replies, pending := pending, heard := s.hand n r } := by
  obtain ⟨rest, hslots, hrest⟩ := h.aligned hdead
  rw [hr, hp, map_cons, map_cons, cons_append, List.cons.injEq] at hslots
  obtain ⟨hhead, hslots⟩ := hslots
  obtain rfl := some.inj hhead
  have hheard : ∀ x, x ∈ s.heard → x ∈ s.hand n n := by
    intro x hx
    unfold hand
    split
    · exact hx
    · exact mem_append_left _ hx
  refine ⟨fun _ => ⟨rest, hslots, hrest⟩, fun hd => ?_, fun m r hmem => ?_, fun m hm => ?_⟩
  · cases hdead.symm.trans hd
  · have hmem : (m, some r) ∈ s.hand n n := hmem
    unfold hand at hmem
    split at hmem
    · exact h.own m r hmem
    rcases mem_append.mp hmem with hold | hnew
    · exact h.own m r hold
    · obtain ⟨rfl, hr⟩ := Prod.mk.inj (mem_singleton.mp hnew)
      exact some.inj hr
  rcases h.accounted m hm with hgone | hpending | ⟨o, ho⟩
  · exact .inl hgone
  · rw [hp] at hpending
    rcases mem_cons.mp hpending with rfl | hlater
    · by_cases hgone : m ∈ s.gone
      · exact .inl hgone
      refine .inr (.inr ⟨some m, ?_⟩)
      show (m, some m) ∈ s.hand m m
      rw [hand, if_neg hgone]
      exact mem_append_right _ (mem_singleton.mpr rfl)
    · exact .inr (.inl hlater)
  · exact .inr (.inr ⟨o, hheard _ ho⟩)

theorem Sound.step {s' : SharedConn} (h : s.Sound) {e : ConnEvent} (he : e.keepsFlush)
    (hstep : s.step e = some s') : s'.Sound := by
  unfold SharedConn.step at hstep
  cases e with
  | stage =>
    dsimp only at hstep
    split at hstep
    · cases hstep
      exact h
    · next hdead =>
      cases hstep
      refine ⟨fun hd => (h.aligned hd).stage, fun hd => absurd hd hdead, h.own, fun n hn => ?_⟩
      by_cases hlast : n = s.next
      · exact .inr (.inl (mem_append_right _ (mem_singleton.mpr hlast)))
      have hlt : n < s.next := by
        have hn : n < s.next + 1 := hn
        omega
      exact (h.accounted n hlt).imp_right (Or.imp_left fun hp => mem_append_left _ hp)
  | flush =>
    dsimp only at hstep
    split at hstep
    · cases hstep
      exact h
    cases hstep
    refine { h with aligned := fun hd => (h.aligned hd).of_unwritten ?_ }
    unfold unwritten
    simp
  | write =>
    dsimp only at hstep
    split at hstep
    · cases hstep
    · next rest hflushes =>
      cases hstep
      refine { h with aligned := fun hd => (h.aligned hd).of_unwritten ?_ }
      unfold unwritten
      rw [hflushes]
      rfl
    · next n buf rest hflushes =>
      split at hstep
      · next hbroken =>
        cases hstep
        refine { h with aligned := fun hd => ?_ }
        obtain ⟨left, hslots, -⟩ := h.aligned hd
        exact ⟨left, hslots, fun hb => by cases hbroken.symm.trans hb⟩
      · next hbroken =>
        cases hstep
        exact ⟨fun hd => (h.aligned hd).write ((Bool.not_eq_true _).mp hbroken) hflushes, h.told,
          h.own, h.accounted⟩
  | breakSocket =>
    cases hstep
    refine { h with aligned := fun hd => ?_ }
    obtain ⟨rest, hslots, -⟩ := h.aligned hd
    exact ⟨rest, hslots, nofun⟩
  | answer =>
    dsimp only at hstep
    split at hstep
    · next n wire hwire =>
      cases hstep
      exact { h with aligned := fun hd => (h.aligned hd).answer hwire }
    · cases hstep
  | read =>
    dsimp only at hstep
    split at hstep
    · cases hstep
    · next hdead =>
      split at hstep
      · cases hstep
      · cases hstep
        exact h.close
      · next r replies n pending hr hp =>
        cases hstep
        exact h.read ((Bool.not_eq_true _).mp hdead) hr hp
  | lose | retire =>
    cases hstep
    exact h.close
  | timeout n =>
    obtain ⟨-, ⟨⟩⟩ := ite_none_right_eq_some.mp hstep
    exact h.close
  | dropCaller n =>
    cases hstep
    exact ⟨h.aligned, h.told, h.own, fun m hm =>
      (h.accounted m hm).imp_left fun hgone => mem_cons_of_mem _ hgone⟩
  | dropFlush i torn callers => cases he

theorem sound_fresh : fresh.Sound := ⟨fun _ => ⟨[], rfl, fun _ => rfl⟩, nofun, nofun, nofun⟩

end SharedConn

/-- **Replies go to their callers**: where no task is dropped inside a flush, whoever hears a reply
hears its own, every caller waits, has heard or is gone, and nobody waits on a connection that is no
longer read. -/
theorem replies_reach_callers {s : SharedConn}
    (h : sharedConn.Reach (fun _ e => e.keepsFlush = true) s) :
    (∀ n r, (n, some r) ∈ s.heard → r = n) ∧
      (∀ n < s.next, n ∈ s.gone ∨ n ∈ s.pending ∨ ∃ o, (n, o) ∈ s.heard) ∧
      (s.dead = true → s.pending = []) := by
  have hsound : s.Sound := by
    refine h.invariant ?_ fun s e s' _ hs he hstep => hs.step he hstep
    rintro _ rfl
    exact SharedConn.sound_fresh
  exact ⟨hsound.own, hsound.accounted, hsound.told⟩

theorem replies_reach_callers_pair :
    ∃ s, sharedConn.exec .fresh [.stage, .stage, .flush, .write, .write, .answer, .answer, .read,
        .read] = some s ∧ s.heard = [(0, some 0), (1, some 1)] ∧
      ∀ n r, (n, some r) ∈ s.heard → r = n := by
  have hrun : sharedConn.exec .fresh [.stage, .stage, .flush, .write, .write,
      .answer, .answer, .read,
    .read] = some _ := rfl
  exact ⟨_, hrun, rfl, (replies_reach_callers (Machine.Reach.of_exec (.init rfl)
    (Machine.guarded_of_forall (by simp [ConnEvent.keepsFlush]) _) hrun)).1⟩

/-- A task is dropped while it waits for the lock: its slot stays without a frame, and every later
caller hears the reply to the next one's. -/
theorem reply_of_another :
    ∃ s, sharedConn.exec .fresh [.stage, .flush, .stage, .flush, .dropFlush 1 false [1], .stage,
        .flush, .stage, .flush, .write, .write, .write, .write, .write, .answer, .answer, .answer,
        .read, .read, .read] = some s ∧ (2, some 3) ∈ s.heard ∧ 2 ∉ s.gone := by
  refine ⟨_, rfl, ?_, ?_⟩
  · decide
  · decide

end Flint
