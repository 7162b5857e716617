import FlintCache.Lib.SortedRows

/-!
# Storage/StreamGroups — consumer groups and their counters

A consumer group of a stream keeps four families of rows: its own, with two counters; one for each
consumer, with a third; one for each pending entry, naming the consumer that has it; and one for
each consumer and entry it has.  A command has the rows in hand (`GroupHand`) and saves the counters
at the end.
-/

namespace Flint

/-! ## Rows -/

/-- The counters of a consumer group. -/
structure StreamGroup (ι : Type) where
  lastId : ι
  entriesRead : ℤ
  pending : ℕ
  consumers : ℕ

structure GroupConsumer where
  seenMs : ℕ
  activeMs : Option ℕ
  pending : ℕ

def GroupConsumer.new (now : ℕ) : GroupConsumer := ⟨now, none, 0⟩

def GroupConsumer.lessOne (c : GroupConsumer) : GroupConsumer := { c with pending := c.pending - 1 }

/-- An entry that was delivered and not acknowledged. -/
structure PendingEntry (ν : Type) where
  consumer : ν
  deliveredMs : ℕ
  deliveries : ℕ

variable {ι ν φ : Type} [LinearOrder ι] [LinearOrder ν]

structure GroupRows (ι ν : Type) [LinearOrder ι] [LinearOrder ν] where
  group : Option (StreamGroup ι)
  consumers : SortedRows ν GroupConsumer
  pendings : SortedRows ι (PendingEntry ν)
  owned : SortedRows (ν ×ₗ ι) Unit

namespace GroupRows

def empty : GroupRows ι ν := ⟨none, .empty, .empty, .empty⟩

def eraseOwned (r : GroupRows ι ν) (n : ν) (id : ι) : GroupRows ι ν :=
  { r with owned := r.owned.erase (toLex (n, id)) }

def putOwned (r : GroupRows ι ν) (n : ν) (id : ι) : GroupRows ι ν :=
  { r with owned := r.owned.put (toLex (n, id)) () }

def erasePending (r : GroupRows ι ν) (id : ι) : GroupRows ι ν :=
  { r with pendings := r.pendings.erase id }

def putPending (r : GroupRows ι ν) (id : ι) (p : PendingEntry ν) : GroupRows ι ν :=
  { r with pendings := r.pendings.put id p }

def ownedIds (r : GroupRows ι ν) (n : ν) : List ι :=
  (r.owned.rows.filter fun row => (ofLex row.1).1 = n).map fun row => (ofLex row.1).2

end GroupRows

/-! ## Rows in hand -/

/-- A command under way: the group's row, the consumer it is for, the other consumers it has loaded,
and the rows in the store. -/
structure GroupHand (ι ν : Type) [LinearOrder ι] [LinearOrder ν] where
  group : StreamGroup ι
  held : Option (ν × GroupConsumer)
  others : SortedRows ν GroupConsumer
  rows : GroupRows ι ν

namespace GroupHand

def seen (r : GroupRows ι ν) (g : StreamGroup ι) (name : ν) (now : ℕ) : GroupHand ι ν :=
  match r.consumers.get name with
  | some c => ⟨g, some (name, { c with seenMs := now }), .empty, r⟩
  | none => ⟨{ g with consumers := g.consumers + 1 }, some (name, .new now), .empty, r⟩

/-- Another consumer loses an entry: it is loaded once, and its counter is changed in hand. -/
def loseOther (h : GroupHand ι ν) (owner : ν) : GroupHand ι ν :=
  match (h.others.get owner).or (h.rows.consumers.get owner) with
  | some o => { h with others := h.others.put owner o.lessOne }
  | none => h

def lose (h : GroupHand ι ν) (owner : ν) : GroupHand ι ν :=
  match h.held with
  | some (n, c) => if owner = n then { h with held := some (n, c.lessOne) } else h.loseOther owner
  | none => h.loseOther owner

def gain (h : GroupHand ι ν) : GroupHand ι ν :=
  { h with held := h.held.map fun nc => (nc.1, { nc.2 with pending := nc.2.pending + 1 }) }

def active (h : GroupHand ι ν) (now : ℕ) : GroupHand ι ν :=
  { h with held := h.held.map fun nc => (nc.1, { nc.2 with activeMs := some now }) }

def grow (h : GroupHand ι ν) : GroupHand ι ν :=
  { h with group := { h.group with pending := h.group.pending + 1 } }

def deliver (name : ν) (now : ℕ) (h : GroupHand ι ν) (id : ι) : GroupHand ι ν :=
  let h := match h.rows.pendings.get id with
    | some p =>
      if p.consumer = name then h
      else (loseOther { h with rows := h.rows.eraseOwned p.consumer id } p.consumer).gain
    | none => h.grow.gain
  active { h with rows := (h.rows.putPending id ⟨name, now, 1⟩).putOwned name id } now

def take (h : GroupHand ι ν) (name : ν) (id : ι) (p : PendingEntry ν) (owned : Bool) :
    GroupHand ι ν :=
  let h := if owned = false ∨ p.consumer ≠ name then
      let h := if owned then
          loseOther { h with rows := h.rows.eraseOwned p.consumer id } p.consumer
        else h
      gain { h with rows := h.rows.putOwned name id }
    else h
  { h with rows := h.rows.putPending id { p with consumer := name } }

def forget (h : GroupHand ι ν) (id : ι) (p : PendingEntry ν) : GroupHand ι ν :=
  let h := lose { h with rows := (h.rows.erasePending id).eraseOwned p.consumer id } p.consumer
  { h with group := { h.group with pending := h.group.pending - 1 } }

def save (h : GroupHand ι ν) : GroupRows ι ν :=
  { h.rows with
    group := some h.group
    consumers :=
      match h.held with
      | some (n, c) => (h.rows.consumers.putAll h.others.rows).put n c
      | none => h.rows.consumers.putAll h.others.rows }

end GroupHand

/-! ## Streams -/

/-- A stream: its entries, what its metadata says of them, and its groups. -/
structure GroupStream (ι ν φ : Type) [LinearOrder ι] [LinearOrder ν] where
  entries : SortedRows ι φ
  lastId : ι
  maxDeletedId : ι
  entriesAdded : ℕ
  groups : ν → GroupRows ι ν

inductive ReadFrom (ι : Type)
  | new
  | after (id : ι)

structure ClaimOpts (ι : Type) where
  deliveredMs : Option ℕ
  retryCount : Option ℕ
  force : Bool
  justId : Bool
  lastId : Option ι

inductive GroupStart (ι : Type)
  | last
  | id (i : ι)

namespace GroupStream

def withGroup (s : GroupStream ι ν φ) (g : ν) (r : GroupRows ι ν) : GroupStream ι ν φ :=
  { s with groups := Function.update s.groups g r }

def startId (s : GroupStream ι ν φ) : GroupStart ι → ι
  | .last => s.lastId
  | .id i => i

def entriesReadUnknown : ℤ := -1

section Lag

variable [OrderBot ι]

def firstId (s : GroupStream ι ν φ) : ι := (s.entries.rows.head?.map Prod.fst).getD ⊥

def hasTombstones (s : GroupStream ι ν φ) (start : ι) : Bool :=
  !s.entries.rows.isEmpty && s.maxDeletedId ≠ ⊥ && start ≤ s.maxDeletedId

def estimateEntriesRead (s : GroupStream ι ν φ) (first id : ι) : ℤ :=
  let added : ℤ := s.entriesAdded
  let len : ℤ := s.entries.rows.length
  if s.entriesAdded = 0 then 0
  else if len = 0 ∧ id ≤ s.lastId then added
  else if id ≠ ⊥ ∧ id < s.maxDeletedId then entriesReadUnknown
  else if id = s.lastId then added
  else if s.lastId < id then entriesReadUnknown
  else if (s.maxDeletedId = ⊥ ∨ s.maxDeletedId < first) ∧ id < first then added - len
  else if (s.maxDeletedId = ⊥ ∨ s.maxDeletedId < first) ∧ id = first then added - len + 1
  else entriesReadUnknown

def advance (s : GroupStream ι ν φ) (g : StreamGroup ι) (id : ι) : StreamGroup ι :=
  let read :=
    if g.entriesRead ≠ entriesReadUnknown ∧ s.firstId ≤ g.lastId ∧ s.hasTombstones g.lastId = false
    then g.entriesRead + 1
    else if 0 < s.entriesAdded then s.estimateEntriesRead s.firstId id
    else g.entriesRead
  { g with lastId := id, entriesRead := read }

end Lag

/-! ### Entries -/

def xadd (s : GroupStream ι ν φ) (id : ι) (fields : φ) : GroupStream ι ν φ :=
  { s with entries := s.entries.put id fields, lastId := id, entriesAdded := s.entriesAdded + 1 }

def xdel (s : GroupStream ι ν φ) (ids : List ι) : GroupStream ι ν φ :=
  ids.foldl (fun s id =>
    if (s.entries.get id).isSome then
      { s with entries := s.entries.erase id, maxDeletedId := max s.maxDeletedId id }
    else s) s

def xtrim (s : GroupStream ι ν φ) (n : ℕ) : GroupStream ι ν φ :=
  { s with entries := (s.entries.rows.take n).foldl (fun e row => e.erase row.1) s.entries }

/-! ### Groups and consumers -/

def groupCreate (s : GroupStream ι ν φ) (g : ν) (start : GroupStart ι) (entriesRead : ℤ) :
    GroupStream ι ν φ :=
  match (s.groups g).group with
  | some _ => s
  | none => s.withGroup g { s.groups g with group := some ⟨s.startId start, entriesRead, 0, 0⟩ }

def groupSetid (s : GroupStream ι ν φ) (g : ν) (start : GroupStart ι) (entriesRead : ℤ) :
    GroupStream ι ν φ :=
  match (s.groups g).group with
  | none => s
  | some grp =>
    s.withGroup g { s.groups g with
      group := some { grp with lastId := s.startId start, entriesRead := entriesRead } }

def groupDestroy (s : GroupStream ι ν φ) (g : ν) : GroupStream ι ν φ :=
  match (s.groups g).group with
  | none => s
  | some _ => s.withGroup g .empty

def consumerCreate (s : GroupStream ι ν φ) (g name : ν) (now : ℕ) : GroupStream ι ν φ :=
  match (s.groups g).group with
  | none => s
  | some grp =>
    if ((s.groups g).consumers.get name).isSome then s
    else
      s.withGroup g { s.groups g with
        consumers := (s.groups g).consumers.put name (.new now)
        group := some { grp with consumers := grp.consumers + 1 } }

def consumerDelete (s : GroupStream ι ν φ) (g name : ν) : GroupStream ι ν φ :=
  match (s.groups g).group with
  | none => s
  | some grp =>
    if ((s.groups g).consumers.get name).isNone then s
    else
      let ids := (s.groups g).ownedIds name
      let r := ids.foldl (fun r id => (r.erasePending id).eraseOwned name id) (s.groups g)
      s.withGroup g { r with
        consumers := r.consumers.erase name
        group := some { grp with
          pending := grp.pending - ids.length, consumers := grp.consumers - 1 } }

/-! ### Reading -/

def redeliver (s : GroupStream ι ν φ) (now : ℕ) (h : GroupHand ι ν) (id : ι) : GroupHand ι ν :=
  match s.entries.get id, h.rows.pendings.get id with
  | some _, some p =>
    let again := { p with deliveredMs := now, deliveries := p.deliveries + 1 }
    { h with rows := h.rows.putPending id again }
  | _, _ => h

def readGroup [OrderBot ι] (s : GroupStream ι ν φ) (g name : ν) (source : ReadFrom ι)
    (count : Option ℕ) (noack poll : Bool) (now : ℕ) : GroupStream ι ν φ :=
  match (s.groups g).group with
  | none => s
  | some grp =>
    let h := GroupHand.seen (s.groups g) grp name now
    let limit (l : List ι) : List ι := count.elim l fun n => l.take n
    match source with
    | .after id =>
      let ids := limit (((s.groups g).ownedIds name).filter fun i => id < i)
      s.withGroup g (ids.foldl (s.redeliver now) h).save
    | .new =>
      let ids := limit ((s.entries.rows.map Prod.fst).filter fun i => grp.lastId < i)
      if ids.isEmpty && poll then s
      else
        let h := ids.foldl (fun h id =>
          let h := { h with group := s.advance h.group id }
          if noack then h else h.deliver name now id) h
        s.withGroup g h.save

def ack (s : GroupStream ι ν φ) (g : ν) (ids : List ι) : GroupStream ι ν φ :=
  match (s.groups g).group with
  | none => s
  | some grp =>
    let h := ids.foldl (fun h id =>
      match h.rows.pendings.get id with
      | some p => h.forget id p
      | none => h) (⟨grp, none, .empty, s.groups g⟩ : GroupHand ι ν)
    s.withGroup g h.save

/-! ### Claiming -/

def isIdle (now minIdle : ℕ) (p : PendingEntry ν) : Bool :=
  minIdle = 0 || decide ((minIdle : ℤ) ≤ (now : ℤ) - p.deliveredMs)

def claimOne (s : GroupStream ι ν φ) (name : ν) (minIdle : ℕ) (opts : ClaimOpts ι) (now : ℕ)
    (h : GroupHand ι ν) (id : ι) : GroupHand ι ν :=
  let recorded (p : PendingEntry ν) : PendingEntry ν :=
    { p with
      deliveredMs := opts.deliveredMs.getD now
      deliveries := opts.retryCount.getD (if opts.justId then p.deliveries else p.deliveries + 1) }
  match s.entries.get id, h.rows.pendings.get id with
  | none, some p => h.forget id p
  | none, none => h
  | some _, some p =>
    if isIdle now minIdle p then (h.take name id (recorded p) true).active now else h
  | some _, none =>
    if opts.force then (h.grow.take name id (recorded ⟨name, now, 1⟩) false).active now else h

def claim (s : GroupStream ι ν φ) (g name : ν) (ids : List ι) (minIdle : ℕ) (opts : ClaimOpts ι)
    (now : ℕ) : GroupStream ι ν φ :=
  match (s.groups g).group with
  | none => s
  | some grp =>
    let grp := { grp with lastId := opts.lastId.elim grp.lastId (max grp.lastId) }
    let h := ids.foldl (s.claimOne name minIdle opts now) (GroupHand.seen (s.groups g) grp name now)
    s.withGroup g h.save

/-- An `XAUTOCLAIM` under way: how many entries it may still look at and answer. -/
structure AutoClaim (ι ν : Type) [LinearOrder ι] [LinearOrder ν] where
  attempts : ℕ
  left : ℕ
  hand : GroupHand ι ν

def autoclaimOne (s : GroupStream ι ν φ) (name : ν) (minIdle : ℕ) (justId : Bool) (now : ℕ)
    (a : AutoClaim ι ν) (row : ι × PendingEntry ν) : AutoClaim ι ν :=
  if a.attempts = 0 ∨ a.left = 0 then { a with attempts := 0 }
  else
    let p := row.2
    match s.entries.get row.1 with
    | none => ⟨a.attempts - 1, a.left - 1, a.hand.forget row.1 p⟩
    | some _ =>
      if isIdle now minIdle p then
        let p := { p with
          deliveredMs := now, deliveries := if justId then p.deliveries else p.deliveries + 1 }
        ⟨a.attempts - 1, a.left - 1, (a.hand.take name row.1 p true).active now⟩
      else { a with attempts := a.attempts - 1 }

/-- `XAUTOCLAIM`: the pending entries from `start` on.  The walk reads ahead, and changes only rows
it has passed. -/
def autoclaim (s : GroupStream ι ν φ) (g name : ν) (minIdle : ℕ) (start : ι) (count : ℕ)
    (justId : Bool) (now : ℕ) : GroupStream ι ν φ :=
  match (s.groups g).group with
  | none => s
  | some grp =>
    let walk := (s.groups g).pendings.rows.filter fun row => start ≤ row.1
    let a := walk.foldl (s.autoclaimOne name minIdle justId now)
      ⟨count * 10, count, GroupHand.seen (s.groups g) grp name now⟩
    s.withGroup g a.hand.save

end GroupStream

end Flint
