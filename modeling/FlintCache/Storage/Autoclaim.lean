import FlintCache.Storage.GroupCounts

/-!
# Storage/Autoclaim — `XAUTOCLAIM`, call after call

A call looks at the pending entries from its cursor on, claims those that are idle, forgets those
whose entries are gone, and stops at its count or at ten times as many looks; it answers with the
first entry it did not look at, or `0-0`.
-/

namespace Flint

open List SortedRows GroupHand

variable {ι ν φ : Type} [LinearOrder ι] [LinearOrder ν]

structure AutoClaimed (ι φ : Type) where
  next : ι
  claimed : List (ι × Option φ)
  deleted : List ι

namespace GroupStream

variable (s : GroupStream ι ν φ) (minIdle : ℕ) (justId : Bool) (now : ℕ)

/-- What an `XAUTOCLAIM` answers; its walk and its two limits are those of `autoclaimOne`. -/
def autoclaimed [OrderBot ι] : ℕ → ℕ → List (ι × PendingEntry ν) → AutoClaimed ι φ
  | _, _, [] => ⟨⊥, [], []⟩
  | attempts, left, row :: walk =>
    if attempts = 0 ∨ left = 0 then ⟨row.1, [], []⟩
    else
      match s.entries.get row.1 with
      | none =>
        let r := autoclaimed (attempts - 1) (left - 1) walk
        { r with deleted := row.1 :: r.deleted }
      | some fields =>
        if isIdle now minIdle row.2 then
          let r := autoclaimed (attempts - 1) (left - 1) walk
          { r with claimed := (row.1, if justId then none else some fields) :: r.claimed }
        else autoclaimed (attempts - 1) left walk

/-- **A pending entry that is reached** is claimed if its entry exists and it is idle… -/
def claimOf (row : ι × PendingEntry ν) : Option (ι × Option φ) :=
  (s.entries.get row.1).bind fun fields =>
    if isIdle now minIdle row.2 then some (row.1, if justId then none else some fields) else none

/-- …and deleted if its entry is gone. -/
def isGone (row : ι × PendingEntry ν) : Bool := (s.entries.get row.1).isNone

def settled (name : ν) (row : ι × PendingEntry ν) : Option (PendingEntry ν) :=
  (s.entries.get row.1).map fun _ =>
    if isIdle now minIdle row.2 then
      ⟨name, now, if justId then row.2.deliveries else row.2.deliveries + 1⟩
    else row.2

def answered (next : ι) (part : List (ι × PendingEntry ν)) : AutoClaimed ι φ :=
  ⟨next, part.filterMap (s.claimOf minIdle justId now), (part.filter s.isGone).map Prod.fst⟩

variable {s minIdle justId now}

theorem foldl_autoclaimOne_over (name : ν) (walk : List (ι × PendingEntry ν)) {a : AutoClaim ι ν}
    (ha : a.attempts = 0 ∨ a.left = 0) :
    (walk.foldl (s.autoclaimOne name minIdle justId now) a).hand = a.hand := by
  induction walk generalizing a with
  | nil => rfl
  | cons row walk ih =>
    rw [foldl_cons, autoclaimOne, if_pos ha]
    exact ih (.inl rfl)

/-- One look: the row is settled, no other changes, and the answer to the rest is added to. -/
theorem autoclaimOne_spec [OrderBot ι] (name : ν) {attempts left : ℕ} {hand : GroupHand ι ν}
    {row : ι × PendingEntry ν} (hover : ¬ (attempts = 0 ∨ left = 0))
    (hhand : hand.rows.pendings.get row.1 = some row.2) (walk : List (ι × PendingEntry ν)) :
    ∃ left' hand', s.autoclaimOne name minIdle justId now ⟨attempts, left, hand⟩ row =
        ⟨attempts - 1, left', hand'⟩ ∧
      (∀ id ≠ row.1, hand'.rows.pendings.get id = hand.rows.pendings.get id) ∧
      hand'.rows.pendings.get row.1 = s.settled minIdle justId now name row ∧
      ∀ next part, s.autoclaimed minIdle justId now (attempts - 1) left' walk =
          s.answered minIdle justId now next part →
        s.autoclaimed minIdle justId now attempts left (row :: walk) =
          s.answered minIdle justId now next (row :: part) := by
  unfold autoclaimOne settled answered
  simp only [autoclaimed, if_neg hover]
  cases hentry : s.entries.get row.1 with
  | none =>
    refine ⟨_, _, rfl, fun id hid => get_pendings_forget hid _, ?_,
      fun next part hreply => by simp [hreply, claimOf, isGone, hentry]⟩
    unfold forget
    rw [(lose_frame _).1]
    exact get_erase.trans (if_pos rfl)
  | some fields =>
    by_cases hidle : isIdle now minIdle row.2 = true
    · refine ⟨_, _, if_pos hidle, fun id hid => get_pendings_take hid _ _, ?_,
        fun next part hreply => by simp [hreply, claimOf, isGone, hentry, hidle]⟩
      rw [Option.map_some, if_pos hidle]
      exact get_put.trans (if_pos rfl)
    · refine ⟨_, _, if_neg hidle, fun _ _ => rfl, ?_,
        fun next part hreply => by simp [hreply, claimOf, isGone, hentry, hidle]⟩
      rw [Option.map_some, if_neg hidle]
      exact hhand

/-- **What a walk looks at** is answered for; the rest is where the next one starts, and stays. -/
theorem autoclaimed_spec [OrderBot ι] (name : ν) {walk : List (ι × PendingEntry ν)}
    (hnodup : (walk.map Prod.fst).Nodup) (attempts left : ℕ) (hand : GroupHand ι ν)
    (hhand : ∀ row ∈ walk, hand.rows.pendings.get row.1 = some row.2) :
    ∃ part rest, walk = part ++ rest ∧ (0 < attempts → 0 < left → walk ≠ [] → part ≠ []) ∧
      s.autoclaimed minIdle justId now attempts left walk =
        s.answered minIdle justId now ((rest.head?.map Prod.fst).getD ⊥) part ∧
      ∀ hand', (walk.foldl (s.autoclaimOne name minIdle justId now) ⟨attempts, left, hand⟩).hand =
          hand' →
        (∀ id ∉ part.map Prod.fst, hand'.rows.pendings.get id = hand.rows.pendings.get id) ∧
          ∀ row ∈ part, hand'.rows.pendings.get row.1 = s.settled minIdle justId now name row := by
  induction walk generalizing attempts left hand with
  | nil =>
    refine ⟨[], [], rfl, fun _ _ h => absurd rfl h, rfl, ?_⟩
    rintro _ rfl
    exact ⟨fun _ _ => rfl, nofun⟩
  | cons row walk ih =>
    obtain ⟨hnot, hnodup⟩ := nodup_cons.mp hnodup
    by_cases hover : attempts = 0 ∨ left = 0
    · refine ⟨[], row :: walk, rfl, fun ha hl => absurd hover (by omega), ?_, ?_⟩
      · rw [autoclaimed, if_pos hover]
        rfl
      · rintro _ rfl
        exact ⟨fun _ _ => by rw [foldl_autoclaimOne_over name _ hover], nofun⟩
    obtain ⟨left', hand', hone, hframe, hrow, hanswer⟩ :=
      autoclaimOne_spec name hover (hhand row mem_cons_self) walk
    obtain ⟨part, rest, hwalk, -, hreply, hstate⟩ := ih hnodup (attempts - 1) left' hand'
      fun row' hrow' => (hframe row'.1 fun h => hnot (h ▸ mem_map_of_mem hrow')).trans
        (hhand row' (mem_cons_of_mem _ hrow'))
    refine ⟨row :: part, rest, by rw [hwalk, cons_append], fun _ _ _ => cons_ne_nil _ _,
      hanswer _ _ hreply, fun hand'' hrun => ?_⟩
    rw [foldl_cons, hone] at hrun
    obtain ⟨hkept, hsettled⟩ := hstate hand'' hrun
    have hfirst : row.1 ∉ part.map Prod.fst := fun h => hnot (by
      rw [hwalk, map_append]
      exact mem_append_left _ h)
    refine ⟨fun id hid => ?_, fun row' hrow' => ?_⟩
    · rw [map_cons, mem_cons, not_or] at hid
      rw [hkept id hid.2, hframe id hid.1]
    · obtain rfl | hrow' := mem_cons.mp hrow'
      · rw [hkept _ hfirst, hrow]
      · exact hsettled row' hrow'

end GroupStream

/-! ## Calls -/

/-- A call: the stream it finds, its arguments and the time. -/
structure AutoclaimCall (ι ν φ : Type) [LinearOrder ι] [LinearOrder ν] where
  stream : GroupStream ι ν φ
  name : ν
  minIdle : ℕ
  count : ℕ
  justId : Bool
  now : ℕ

open GroupStream

namespace AutoclaimCall

variable (c : AutoclaimCall ι ν φ) (g : ν) (start : ι)

def pendings : SortedRows ι (PendingEntry ν) := (c.stream.groups g).pendings

def walk : List (ι × PendingEntry ν) := (c.pendings g).rows.filter fun row => start ≤ row.1

def left : SortedRows ι (PendingEntry ν) :=
  ((c.stream.autoclaim g c.name c.minIdle start c.count c.justId c.now).groups g).pendings

variable [OrderBot ι]

def reply : AutoClaimed ι φ :=
  c.stream.autoclaimed c.minIdle c.justId c.now (c.count * 10) c.count (c.walk g start)

def cursor (g : ν) : (ℕ → AutoclaimCall ι ν φ) → ι → ℕ → ι
  | _, start, 0 => start
  | calls, start, i + 1 => cursor g (fun j => calls (j + 1)) ((calls 0).reply g start).next i

/-- **Calls on a group whose pending entries nothing else changes**: a call finds those that the one
before left. -/
structure Undisturbed (g : ν) (calls : ℕ → AutoclaimCall ι ν φ) (start : ι) : Prop where
  group : ∀ i, ((calls i).stream.groups g).group.isSome = true
  count : ∀ i, 0 < (calls i).count
  pendings : ∀ i, (calls (i + 1)).pendings g = (calls i).left g (cursor g calls start i)

def settled (row : ι × PendingEntry ν) : Option (PendingEntry ν) :=
  c.stream.settled c.minIdle c.justId c.now c.name row

/-- **The pending entries a call has reached** are claimed and deleted, and no others. -/
def Settles (r : AutoClaimed ι φ) (part : List (ι × PendingEntry ν)) : Prop :=
  r.claimed = part.filterMap (c.stream.claimOf c.minIdle c.justId c.now) ∧
    r.deleted = (part.filter c.stream.isGone).map Prod.fst

/-- **The parts that the calls reach**, until one answers `0-0`; each stays as it was left. -/
structure Reaches (g : ν) (calls : ℕ → AutoclaimCall ι ν φ) (start : ι)
    (parts : List (List (ι × PendingEntry ν))) : Prop where
  pos : 0 < parts.length
  last : cursor g calls start parts.length = ⊥
  goesOn : ∀ i, 0 < i → i < parts.length → cursor g calls start i ≠ ⊥
  settles : ∀ i part, parts[i]? = some part →
    (calls i).Settles ((calls i).reply g (cursor g calls start i)) part ∧
      ∀ row ∈ part, ((calls parts.length).pendings g).get row.1 = (calls i).settled row

variable {c g start}

theorem reply_spec (hgroup : (c.stream.groups g).group.isSome = true) (hcount : 0 < c.count) :
    ∃ part rest, c.walk g start = part ++ rest ∧ (c.walk g start ≠ [] → part ≠ []) ∧
      (c.reply g start).next = (rest.head?.map Prod.fst).getD ⊥ ∧ c.Settles (c.reply g start) part ∧
      (∀ id ∉ part.map Prod.fst, (c.left g start).get id = (c.pendings g).get id) ∧
      ∀ row ∈ part, (c.left g start).get row.1 = c.settled row := by
  obtain ⟨grp, hgrp⟩ := Option.isSome_iff_exists.mp hgroup
  have hnodup : ((c.walk g start).map Prod.fst).Nodup :=
    nodup_keys.sublist (filter_sublist.map _)
  obtain ⟨part, rest, hwalk, hpart, hreply, hstate⟩ :=
    @GroupStream.autoclaimed_spec _ _ _ _ _ c.stream
    c.minIdle c.justId c.now _ c.name _ hnodup (c.count * 10) c.count
    (seen (c.stream.groups g) grp c.name c.now) fun row hrow => by
      rw [rows_seen]
      exact mem_rows.mp (mem_of_mem_filter hrow)
  obtain ⟨hkept, hsettled⟩ := hstate _ rfl
  have hleft : c.left g start = ((c.walk g start).foldl (c.stream.autoclaimOne c.name c.minIdle
      c.justId c.now) ⟨c.count * 10, c.count, seen (c.stream.groups g) grp c.name
        c.now⟩).hand.rows.pendings := by
    rw [left, autoclaim, hgrp]
    simp only [withGroup, Function.update_self]
    rfl
  rw [rows_seen] at hkept
  rw [reply, hreply, hleft]
  exact ⟨part, rest, hwalk, hpart (by omega) hcount, rfl, ⟨rfl, rfl⟩, hkept, hsettled⟩

variable {part rest : List (ι × PendingEntry ν)} {row : ι × PendingEntry ν}

omit [OrderBot ι] in
theorem walk_sorted (hwalk : c.walk g start = part ++ rest) :
    (∀ row ∈ part ++ rest, start ≤ row.1) ∧ (part ++ rest).Pairwise fun a b => a.1 < b.1 := by
  rw [← hwalk]
  exact ⟨fun row hrow => of_decide_eq_true (mem_filter.mp hrow).2,
    (c.pendings g).inOrder.filter _⟩

omit [OrderBot ι] in
/-- What was not looked at is where the next walk begins. -/
theorem walk_of_left {q : SortedRows ι (PendingEntry ν)}
    (hwalk : c.walk g start = part ++ row :: rest)
    (hkept : ∀ id ∉ part.map Prod.fst, q.get id = (c.pendings g).get id) :
    (q.rows.filter fun row' => row.1 ≤ row'.1) = row :: rest := by
  obtain ⟨hfrom, hsorted⟩ := walk_sorted hwalk
  obtain ⟨-, hrest, hpart⟩ := pairwise_append.mp hsorted
  have hsame : q.filter (row.1 ≤ ·) = (c.pendings g).filter (row.1 ≤ ·) := by
    refine ext_get fun id => ?_
    rw [get_filter, get_filter]
    split
    · next hid =>
      refine hkept id fun hmem => ?_
      obtain ⟨row', hrow', rfl⟩ := mem_map.mp hmem
      exact (of_decide_eq_true hid).not_gt (hpart row' hrow' row mem_cons_self)
    · rfl
  have hagain : ((c.pendings g).rows.filter fun row' => row.1 ≤ row'.1) =
      (c.walk g start).filter fun row' => row.1 ≤ row'.1 := by
    rw [walk, filter_filter]
    refine filter_congr fun row' _ => ?_
    rw [Bool.eq_iff_iff, Bool.and_eq_true]
    exact ⟨fun h => ⟨h, decide_eq_true ((hfrom row (by simp)).trans (of_decide_eq_true h))⟩,
        And.left⟩
  rw [show (q.rows.filter fun row' => row.1 ≤ row'.1) = _ from congrArg SortedRows.rows hsame]
  refine hagain.trans ?_
  rw [hwalk, filter_append, filter_eq_nil_iff.mpr, filter_eq_self.mpr, nil_append]
  · intro row' hrow'
    obtain rfl | hrow' := mem_cons.mp hrow'
    · simp
    · exact decide_eq_true ((pairwise_cons.mp hrest).1 row' hrow').le
  · intro row' hrow'
    simpa using hpart row' hrow' row mem_cons_self

variable {calls : ℕ → AutoclaimCall ι ν φ}

theorem Undisturbed.tail (h : Undisturbed g calls start) :
    Undisturbed g (fun j => calls (j + 1)) ((calls 0).reply g start).next :=
  ⟨fun i => h.group (i + 1), fun i => h.count (i + 1), fun i => h.pendings (i + 1)⟩

section

variable (hsettles : (calls 0).Settles ((calls 0).reply g start) part)
include hsettles

theorem Reaches.one (hlast : ((calls 0).reply g start).next = ⊥)
    (hrows : ∀ row ∈ part, ((calls 1).pendings g).get row.1 = (calls 0).settled row) :
    Reaches g calls start [part] := by
  refine ⟨Nat.one_pos, hlast, fun i hi hi' => absurd hi' (Nat.not_lt.mpr hi), fun i _ hpart => ?_⟩
  cases i with
  | zero =>
    obtain rfl := Option.some.inj hpart
    exact ⟨hsettles, hrows⟩
  | succ i => cases hpart

theorem Reaches.cons {parts : List (List (ι × PendingEntry ν))}
    (h : Reaches g (fun j => calls (j + 1)) ((calls 0).reply g start).next parts)
    (hnext : ((calls 0).reply g start).next ≠ ⊥) (hrows : ∀ row ∈ part,
      ((calls (parts.length + 1)).pendings g).get row.1 = (calls 0).settled row) :
    Reaches g calls start (part :: parts) := by
  refine ⟨Nat.succ_pos _, h.last, fun i hi hi' => ?_, fun i _ hpart => ?_⟩
  · obtain ⟨i, rfl⟩ := Nat.exists_eq_add_one.mpr hi
    cases i with
    | zero => exact hnext
    | succ i => exact h.goesOn (i + 1) i.succ_pos (Nat.lt_of_succ_lt_succ hi')
  · cases i with
    | zero =>
      obtain rfl := Option.some.inj hpart
      exact ⟨hsettles, hrows⟩
    | succ i => exact h.settles i _ hpart

end

theorem walks_from {n : ℕ} (h : Undisturbed g calls start)
    (hn : ((calls 0).walk g start).length < n) :
    ∃ parts, parts.flatten = (calls 0).walk g start ∧ Reaches g calls start parts ∧
      ∀ id < start, ((calls parts.length).pendings g).get id = ((calls 0).pendings g).get id := by
  induction n generalizing calls start with
  | zero => omega
  | succ n ih =>
    obtain ⟨part, rest, hwalk, hpart, hnext, hsettles, hkept, hleft⟩ :=
      @reply_spec _ _ _ _ _ (calls 0) g start _ (h.group 0) (h.count 0)
    have hfirst : (calls 1).pendings g = (calls 0).left g start := h.pendings 0
    obtain ⟨hfrom, hsorted⟩ := walk_sorted hwalk
    have hbelow : ∀ id < start, ((calls 1).pendings g).get id = ((calls 0).pendings g).get id := by
      intro id hid
      rw [hfirst]
      refine hkept id fun hmem => ?_
      obtain ⟨row, hrow, rfl⟩ := mem_map.mp hmem
      exact (hfrom row (mem_append_left _ hrow)).not_gt hid
    cases rest with
    | nil => exact ⟨[part], by simpa using hwalk.symm, .one hsettles hnext (hfirst ▸ hleft), hbelow⟩
    | cons row rest =>
      have hnext : ((calls 0).reply g start).next = row.1 := hnext
      have hlt : ∀ row' ∈ part, row'.1 < row.1 := fun row' hrow' =>
        (pairwise_append.mp hsorted).2.2 row' hrow' row mem_cons_self
      obtain ⟨first, hmem⟩ := exists_mem_of_ne_nil part (hpart (by rw [hwalk]; simp))
      have hwalk' : (calls 1).walk g ((calls 0).reply g start).next = row :: rest := by
        rw [walk, hfirst, hnext]
        exact walk_of_left hwalk hkept
      obtain ⟨parts, hflat, hreaches, hlow⟩ := ih h.tail (by
        change ((calls 1).walk g _).length < n
        have hlen := congrArg List.length hwalk
        rw [length_append] at hlen
        have := length_pos_of_mem hmem
        rw [hwalk']
        omega)
      rw [hnext] at hlow
      refine ⟨part :: parts, ?_, hreaches.cons hsettles (fun hbot => ?_) fun row' hrow' => ?_,
        fun id hid => (hlow id (hid.trans_le (hfrom row (by simp)))).trans (hbelow id hid)⟩
      · rw [flatten_cons, hflat, hwalk]
        exact congrArg _ hwalk'
      · exact not_lt_bot ((hlt first hmem).trans_eq (hnext.symm.trans hbot))
      · rw [hlow row'.1 (hlt row' hrow'), hfirst]
        exact hleft row' hrow'

/-- **Calls from `0-0` that follow their cursors come to an end, and reach every pending entry
once**: each is claimed from or deleted from by its own call, and what was deleted is pending no
more. -/
theorem autoclaim_walks (h : Undisturbed g calls ⊥) :
    ∃ parts, parts.flatten = ((calls 0).pendings g).rows ∧ Reaches g calls ⊥ parts := by
  obtain ⟨parts, hflat, hreaches, -⟩ := walks_from h (Nat.lt_succ_self _)
  refine ⟨parts, hflat.trans ?_, hreaches⟩
  exact filter_eq_self.mpr fun row _ => decide_eq_true bot_le

theorem autoclaim_walks_two :
    ∃ parts : List (List (ℕ × PendingEntry ℕ)), parts.flatten = [(1, ⟨7, 0, 1⟩), (2, ⟨7, 0, 1⟩)] ∧
      0 < parts.length := by
  -- Both are the consumer's own, and claimed again at the time they were delivered.
  let pending : SortedRows ℕ (PendingEntry ℕ) := (single 1 ⟨7, 0, 1⟩).put 2 ⟨7, 0, 1⟩
  let rows : GroupRows ℕ ℕ := ⟨some ⟨2, 2, 2, 1⟩, .single 7 ⟨0, some 0, 2⟩, pending,
    (single (toLex (7, 1)) ()).put (toLex (7, 2)) ()⟩
  let stream : GroupStream ℕ ℕ Unit := ⟨(single 1 ()).put 2 (), 2, 0, 2, fun _ => rows⟩
  have h : Undisturbed 0 (fun _ => ⟨stream, 7, 0, 1, true, 0⟩) ⊥ := by
    refine ⟨fun _ => rfl, fun _ => Nat.one_pos, fun i => ?_⟩
    generalize cursor 0 (fun _ => (⟨stream, 7, 0, 1, true, 0⟩ : AutoclaimCall ℕ ℕ Unit)) ⊥ i = start
    match start with
    | 0 | 1 | 2 | _ + 3 => rfl
  obtain ⟨parts, hflat, hreaches⟩ := autoclaim_walks h
  exact ⟨parts, hflat, hreaches.pos⟩

end AutoclaimCall

end Flint
