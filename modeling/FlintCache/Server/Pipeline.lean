import FlintCache.Resp.Decode
import FlintCache.Storage.Batch

/-!
# Server/Pipeline — pipelined commands on one connection

A node runs every complete command its socket has, then reads again.  A run of plain `SET`s goes to
an overlay, and is committed and answered as one when something else must happen first (`flush`) —
but for an inline command, a malformed frame and an inline line that is too long
(`pipeline_overtakes`).  The reference, `oneByOne`, takes the whole stream and has no batch.
-/

namespace Flint

open List Bool Nat Framer

/-! ## Commands off the wire -/

inductive ServeError
  | protocol
  | notBulks
  | tooBigInline
  | queryBuffer
  deriving DecidableEq, Repr

def ServeError.text : ServeError → String
  | .protocol => "ERR Protocol error"
  | .notBulks => "ERR Protocol error: expected array of bulk strings"
  | .tooBigInline => "ERR Protocol error: too big inline request"
  | .queryBuffer => "ERR Protocol error: query buffer limit exceeded"

def ServeError.encode (e : ServeError) : List Char := '-' :: e.text.toList ++ ['\r', '\n']

inductive ServeItem
  | inline (args : Args)
  | array (args : Args)
  deriving DecidableEq, Repr

def maxInlineLen : ℕ := 64 * 1024

def maxQueryBuf : ℕ := 1024 * 1024 * 1024

def maxPureBatch : ℕ := 256

def findNl : List Char → Option ℕ
  | [] => none
  | c :: b => if c = '\n' then some 0 else (findNl b).map (· + 1)

def inlineArgs (l : List Char) : Args :=
  let l := if l.getLast? = some '\r' then l.dropLast else l
  ((l.splitOn ' ').filter fun part => !part.isEmpty).map String.ofList

def inlineItem : Decoder Char ServeError ServeItem := fun b =>
  match findNl b with
  | none => .needMore
  | some nl => .complete (.inline (inlineArgs (b.take nl))) (nl + 1)

def bulkBytes : Value → Option String
  | .bulk b => b
  | _ => none

def frameToArgs : Value → Option Args
  | .array (some items) => items.mapM bulkBytes
  | _ => none

variable {i : ServeItem}

section Framing

variable (parseF64 : String → Option UInt64)

def arrayItem : Decoder Char ServeError ServeItem := fun b =>
  match decode parseF64 b with
  | .complete frame used =>
    match frameToArgs frame with
    | some args => .complete (.array args) used
    | none => .error .notBulks
  | .needMore => .needMore
  | .error _ => .error .protocol

variable {b : List Char}

theorem findNl_eq_some {nl : ℕ} (h : findNl b = some nl) :
    nl < b.length ∧ (∀ s, findNl (b.take (nl + 1) ++ s) = some nl) ∧
      ∀ k ≤ nl, findNl (b.take k) = none := by
  induction b generalizing nl with
  | nil => cases h
  | cons c b ih =>
    rw [findNl] at h
    split at h
    · next hc =>
      cases h
      refine ⟨zero_lt_succ _, fun s => if_pos hc, fun k hk => ?_⟩
      obtain rfl := le_zero.mp hk
      rfl
    · next hc =>
      obtain ⟨m, hm, rfl⟩ := Option.map_eq_some_iff.mp h
      obtain ⟨hlt, hlocal, hshort⟩ := ih hm
      refine ⟨succ_lt_succ hlt, fun s => ?_, fun k hk => ?_⟩
      · rw [take_succ_cons, cons_append, findNl, if_neg hc, hlocal s]
        rfl
      cases k with
      | zero => rfl
      | succ k =>
        rw [take_succ_cons, findNl, if_neg hc, hshort k (le_of_succ_le_succ hk)]
        rfl

variable {n : ℕ}

theorem inlineItem_eq_complete (h : inlineItem b = .complete i n) :
    ∃ nl, findNl b = some nl ∧ i = .inline (inlineArgs (b.take nl)) ∧ n = nl + 1 := by
  unfold inlineItem at h
  split at h
  · cases h
  · next nl hnl =>
    cases h
    exact ⟨nl, hnl, rfl, rfl⟩

theorem inlineItem_stable : Stable inlineItem where
  le_length h := by
    obtain ⟨nl, hnl, -, rfl⟩ := inlineItem_eq_complete h
    exact (findNl_eq_some hnl).1
  local_ {b _ _} h s := by
    obtain ⟨nl, hnl, rfl, rfl⟩ := inlineItem_eq_complete h
    obtain ⟨hlt, hlocal, -⟩ := findNl_eq_some hnl
    have htake : (b.take (nl + 1) ++ s).take nl = b.take nl := by
      rw [take_append_of_le_length, take_take, min_eq_left (le_succ nl)]
      rw [length_take, min_eq_left hlt]
      exact le_succ nl
    rw [inlineItem, hlocal s]
    simp only [htake]
  short h k hk := by
    obtain ⟨nl, hnl, rfl, rfl⟩ := inlineItem_eq_complete h
    rw [inlineItem, (findNl_eq_some hnl).2.2 k (le_of_lt_succ hk)]
  error_append h := by
    unfold inlineItem at h
    split at h
    · cases h
    · cases h

variable {parseF64}

theorem arrayItem_eq_complete (h : arrayItem parseF64 b = .complete i n) :
    ∃ frame args, decode parseF64 b = .complete frame n ∧ frameToArgs frame = some args ∧
      i = .array args := by
  unfold arrayItem at h
  split at h
  · next frame used hdecode =>
    split at h
    · next args hargs =>
      cases h
      exact ⟨frame, args, hdecode, hargs, rfl⟩
    · cases h
  · cases h
  · cases h

theorem arrayItem_of_complete {frame : Value} {args : Args}
    (h : decode parseF64 b = .complete frame n) (hargs : frameToArgs frame = some args) :
    arrayItem parseF64 b = .complete (.array args) n := by
  rw [arrayItem, h]
  simp only [hargs]

theorem arrayItem_stable : Stable (arrayItem parseF64) where
  le_length h := by
    obtain ⟨frame, args, hdecode, -, -⟩ := arrayItem_eq_complete h
    exact (decodeAt_stable _).le_length hdecode
  local_ h s := by
    obtain ⟨frame, args, hdecode, hargs, rfl⟩ := arrayItem_eq_complete h
    exact arrayItem_of_complete ((decodeAt_stable _).local_ hdecode s) hargs
  short {b _ _} h k hk := by
    obtain ⟨frame, args, hdecode, -, -⟩ := arrayItem_eq_complete h
    have hshort : decode parseF64 (b.take k) = .needMore := (decodeAt_stable _).short hdecode k hk
    rw [arrayItem, hshort]
  error_append {b _} h s := by
    unfold arrayItem at h
    cases hdecode : decode parseF64 b with
    | complete frame used =>
      have happend : decode parseF64 (b ++ s) = .complete frame used :=
        (decodeAt_stable _).append hdecode s
      rw [hdecode] at h
      rw [arrayItem, happend]
      exact h
    | needMore =>
      rw [hdecode] at h
      cases h
    | error e =>
      have happend : decode parseF64 (b ++ s) = .error e :=
        (decodeAt_stable _).error_append hdecode s
      rw [hdecode] at h
      rw [arrayItem, happend]
      exact h

variable (parseF64)

theorem arrayItem_consumes (h : arrayItem parseF64 b = .complete i n) : 0 < n := by
  obtain ⟨frame, args, hdecode, -, -⟩ := arrayItem_eq_complete h
  exact decodeAt_consumes hdecode

theorem inlineItem_consumes (h : inlineItem b = .complete i n) : 0 < n := by
  obtain ⟨nl, -, -, rfl⟩ := inlineItem_eq_complete h
  exact succ_pos nl

/-- **The node's framing**: a line, or an array of bulk strings, by the first byte. -/
def serveFramer : Framer Char ServeError ServeItem where
  decode := Decoder.byHead (· == '*') (arrayItem parseF64) inlineItem
  stable := arrayItem_stable.byHead inlineItem_stable
      (arrayItem_consumes parseF64) inlineItem_consumes
  consumes h := by
    obtain h | h := Decoder.byHead_eq_complete h
    · exact arrayItem_consumes parseF64 h
    · exact inlineItem_consumes h

end Framing

/-! ## The node -/

/-- What a node's commands do.  The connection's state `γ` has whatever its commands meet; the
dialect of a reply is not changed by a plain write. -/
structure ServeCommands (γ ρ : Type) where
  execute : γ → Args → RowProg Bytes Bytes Scan (ρ × γ)
  /-- The other refusals of `batch_eligible`: a replica, an engine in memory, a transaction or
  watch, the queue. -/
  mayBatch : γ → Bool
  isError : ρ → Bool
  encode : γ → ρ → List Char
  commitFailed : KvOps → Option ρ

def isPureWrite : Args → Bool
  | [name, _, _] => saysWord name "SET"
  | _ => false

def hijacks : Args → Bool
  | [] => false
  | name :: _ => ["FLINTSYNC", "FLINTSUBSCRIBER", "FLINTFULLSYNC",
      "FLINTMIGRATEOUT"].any (saysWord name)

/-- A connection: its state, the store, the batch with the replies it holds, and what was sent. -/
structure ServeConn (γ ρ : Type) where
  conn : γ
  store : KvRows
  batch : Option (KvOps × List ρ)
  sent : List Char
  closed : Bool

structure PlainConn (γ : Type) where
  conn : γ
  store : KvRows
  sent : List Char
  closed : Bool

variable {γ ρ : Type} (M : ServeCommands γ ρ)

namespace ServeConn

def flush (st : ServeConn γ ρ) : ServeConn γ ρ :=
  match st.batch with
  | none => st
  | some (ops, replies) =>
    match if ops.rows.isEmpty then none else M.commitFailed ops with
    | none =>
      { st with
        batch := none
        store := st.store.applyWrites ops.rows
        sent := st.sent ++ replies.flatMap (M.encode st.conn) }
    | some e =>
      { st with batch := none, sent := st.sent ++ replies.flatMap fun _ => M.encode st.conn e }

def execute (st : ServeConn γ ρ) (args : Args) : ServeConn γ ρ :=
  let out := (M.execute st.conn args).run (RowKv.plain scans) st.store
  { st with conn := out.1.2, store := out.2, sent := st.sent ++ M.encode out.1.2 out.1.1 }

def pending (st : ServeConn γ ρ) : KvOps × List ρ := st.batch.getD (.empty, [])

/-- A plain write joins the batch; a refusal is answered at once, after those before it. -/
def join (st : ServeConn γ ρ) (args : Args) : ServeConn γ ρ :=
  let out := (M.execute st.conn args).run
      (RowKv.batching scans (scans.reader st.store)) st.pending.1
  if M.isError out.1.1 then
    let st := { st with conn := out.1.2, batch := some (out.2, st.pending.2) }.flush M
    { st with sent := st.sent ++ M.encode st.conn out.1.1 }
  else
    let replies := st.pending.2 ++ [out.1.1]
    let st := { st with conn := out.1.2, batch := some (out.2, replies) }
    if maxPureBatch ≤ replies.length then st.flush M else st

def item (st : ServeConn γ ρ) : ServeItem → ServeConn γ ρ
  | .inline [] => st
  -- An inline command does not flush what is pending.
  | .inline (name :: args) => st.execute M (name :: args)
  | .array args =>
    if hijacks args then { st.flush M with closed := true }
    else if isPureWrite args && M.mayBatch st.conn then st.join M args
    else (st.flush M).execute M args

def items (st : ServeConn γ ρ) : List ServeItem → ServeConn γ ρ
  | [] => st
  | i :: is => if (st.item M i).closed then st.item M i else (st.item M i).items is

def fail (st : ServeConn γ ρ) (e : ServeError) : ServeConn γ ρ :=
  { st with batch := none, sent := st.sent ++ e.encode, closed := true }

def tooBig : List Char → Bool
  | [] => false
  | c :: rest => c != '*' && maxInlineLen < (c :: rest).length

variable (parseF64 : String → Option UInt64)

def drain (st : ServeConn γ ρ) (buf : List Char) : ServeConn γ ρ × List Char :=
  let read := (serveFramer parseF64).drain buf
  let st := st.items M read.1
  if st.closed then (st, [])
  else
    match read.2 with
    | .error e => (st.fail e, [])
    | .closed rest => if tooBig rest then (st.fail .tooBigInline, []) else (st.flush M, rest)

def serve (st : ServeConn γ ρ) (buf : List Char) : List (Chunk Char) → ServeConn γ ρ
  | [] => (st.drain M parseF64 buf).1
  | c :: chunks =>
    let out := st.drain M parseF64 buf
    if out.1.closed then out.1
    else if maxQueryBuf < (out.2 ++ c.1).length then out.1.fail .queryBuffer
    else out.1.serve (out.2 ++ c.1) chunks

end ServeConn

/-! ## One command at a time -/

namespace PlainConn

def execute (st : PlainConn γ) (args : Args) : PlainConn γ :=
  let out := (M.execute st.conn args).run (RowKv.plain scans) st.store
  { st with conn := out.1.2, store := out.2, sent := st.sent ++ M.encode out.1.2 out.1.1 }

def item (st : PlainConn γ) : ServeItem → PlainConn γ
  | .inline [] => st
  | .inline (name :: args) => st.execute M (name :: args)
  | .array args => if hijacks args then { st with closed := true } else st.execute M args

theorem item_array (st : PlainConn γ) (args : Args) :
    st.item M (.array args) = if hijacks args
        then { st with closed := true } else st.execute M args :=
  rfl

def items (st : PlainConn γ) : List ServeItem → PlainConn γ
  | [] => st
  | i :: is => if (st.item M i).closed then st.item M i else (st.item M i).items is

/-- **The commands of a stream one at a time**, and then the protocol error if it has one. -/
def oneByOne (st : PlainConn γ) (read : List ServeItem × Ending Char ServeError) : PlainConn γ :=
  if (st.items M read.1).closed then st.items M read.1
  else
    match read.2 with
    | .error e =>
      { st.items M read.1 with
        sent := (st.items M read.1).sent ++ e.encode
        closed := true }
    | .closed _ => st.items M read.1

def toServe (st : PlainConn γ) : ServeConn γ ρ := ⟨st.conn, st.store, none, st.sent, st.closed⟩

end PlainConn

/-! ## The condition -/

/-- Within one read, no inline command and no error meets a pending write; `pure` says whether the
last command was a plain `SET`. -/
def Unmixed (ending : Ending Char ServeError) : Bool → List ServeItem → Prop
  | pure, [] => match ending with
    | .error _ => pure = false
    | .closed rest => ServeConn.tooBig rest = false
  | pure, .inline [] :: is => Unmixed ending pure is
  | pure, .inline (_ :: _) :: is => pure = false ∧ Unmixed ending false is
  | _, .array args :: is => Unmixed ending (isPureWrite args) is

instance decidableUnmixed (ending : Ending Char ServeError) :
    ∀ (pure : Bool) (is : List ServeItem), Decidable (Unmixed ending pure is)
  | pure, [] =>
    match ending with
    | .error _ => inferInstanceAs (Decidable (pure = false))
    | .closed rest => inferInstanceAs (Decidable (ServeConn.tooBig rest = false))
  | pure, .inline [] :: is => decidableUnmixed ending pure is
  | pure, .inline (_ :: _) :: is =>
    have : Decidable (Unmixed ending false is) := decidableUnmixed ending false is
    inferInstanceAs (Decidable (pure = false ∧ Unmixed ending false is))
  | _, .array args :: is => decidableUnmixed ending (isPureWrite args) is

def UnmixedReads (parseF64 : String → Option UInt64) (buf : List Char) : List (Chunk Char) → Prop
  | [] => Unmixed ((serveFramer parseF64).drain buf).2 false ((serveFramer parseF64).drain buf).1
  | c :: chunks =>
    Unmixed ((serveFramer parseF64).drain buf).2 false ((serveFramer parseF64).drain buf).1 ∧
      match ((serveFramer parseF64).drain buf).2 with
      | .error _ => True
      | .closed rest =>
        (rest ++ c.1).length ≤ maxQueryBuf ∧ UnmixedReads parseF64 (rest ++ c.1) chunks

/-! ## The node is the reference -/

/-- What commands are assumed to be like: a plain write leaves the dialect, and commits succeed. -/
structure ServeCommands.Calm (M : ServeCommands γ ρ) : Prop where
  dialect : ∀ c args s, isPureWrite args = true →
    M.encode ((M.execute c args).run (RowKv.plain scans) s).1.2 = M.encode c
  commits : ∀ ops, M.commitFailed ops = none

open PlainConn

open ServeConn

variable {p : PlainConn γ}

namespace ServeConn

variable {M} {st : ServeConn γ ρ}

structure Shows (M : ServeCommands γ ρ) (st : ServeConn γ ρ) (p : PlainConn γ) : Prop where
  conn : st.conn = p.conn
  store : st.store.merge st.pending.1 = p.store
  sent : st.sent ++ st.pending.2.flatMap (M.encode st.conn) = p.sent
  closed : st.closed = p.closed

theorem Shows.eq_toServe (h : st.Shows M p) (hbatch : st.batch = none) : st = p.toServe := by
  obtain ⟨hconn, hstore, hsent, hclosed⟩ := h
  obtain ⟨conn, store, batch, sent, closed⟩ := st
  obtain rfl : batch = none := hbatch
  obtain ⟨conn', store', sent', closed'⟩ := p
  obtain rfl : conn = conn' := hconn
  obtain rfl : closed = closed' := hclosed
  obtain rfl : store = store' := SortedRows.merge_empty.symm.trans hstore
  obtain rfl : sent = sent' := (append_nil sent).symm.trans hsent
  rfl

theorem shows_toServe (p : PlainConn γ) : (p.toServe : ServeConn γ ρ).Shows M p :=
  ⟨rfl, SortedRows.merge_empty, append_nil _, rfl⟩

theorem batch_flush (st : ServeConn γ ρ) : (st.flush M).batch = none := by
  unfold flush
  split
  · assumption
  · split
    · rfl
    · rfl

variable {ending : Ending Char ServeError} {is : List ServeItem}

section

variable (hM : M.Calm)
include hM

theorem Shows.flush (h : st.Shows M p) : st.flush M = p.toServe := by
  suffices hshows : (st.flush M).Shows M p from hshows.eq_toServe (batch_flush st)
  unfold ServeConn.flush
  cases hbatch : st.batch with
  | none => exact h
  | some b =>
    obtain ⟨ops, replies⟩ := b
    have hpending : st.pending = (ops, replies) := by rw [pending, hbatch]; rfl
    have hstore := h.store
    have hsent := h.sent
    rw [hpending] at hstore hsent
    simp only [hM.commits ops, ite_self]
    refine ⟨h.conn, ?_, ?_, h.closed⟩
    · rw [KvRows.applyWrites_eq_merge st.store (.refl _)]
      exact SortedRows.merge_empty.trans hstore
    · exact (append_nil _).trans hsent

theorem Shows.join (h : st.Shows M p) {args : Args} (hpure : isPureWrite args) :
    (st.join M args).Shows M (p.execute M args) := by
  obtain ⟨hreply, hmerge⟩ :=
    (RowKv.simulates_batching (S := scans) st.store).run (M.execute st.conn args) h.store
  have hdialect := hM.dialect st.conn args p.store hpure
  unfold ServeConn.join PlainConn.execute
  rw [← h.conn]
  generalize (M.execute st.conn args).run (RowKv.plain scans) p.store = plain at *
  generalize (M.execute st.conn args).run (RowKv.batching scans (scans.reader st.store))
    st.pending.1 = out at *
  have hsent : st.sent ++ st.pending.2.flatMap (M.encode plain.1.2) = p.sent := by
    rw [hdialect]
    exact h.sent
  simp only [hreply]
  split
  · have hstaged : ({ st with conn := plain.1.2, batch := some (out.2, st.pending.2) } :
        ServeConn γ ρ).Shows M { p with conn := plain.1.2, store := plain.2 } :=
      ⟨rfl, hmerge, hsent, h.closed⟩
    rw [hstaged.flush hM]
    exact shows_toServe
      (⟨plain.1.2, plain.2, p.sent ++ M.encode plain.1.2 plain.1.1, p.closed⟩ : PlainConn γ)
  have hstaged : ({ st with
        conn := plain.1.2, batch := some (out.2, st.pending.2 ++ [plain.1.1]) } :
      ServeConn γ ρ).Shows M
        ⟨plain.1.2, plain.2, p.sent ++ M.encode plain.1.2 plain.1.1, p.closed⟩ := by
    refine ⟨rfl, hmerge, ?_, h.closed⟩
    show st.sent ++ (st.pending.2 ++ [plain.1.1]).flatMap (M.encode plain.1.2) = _
    rw [flatMap_append, flatMap_singleton, ← append_assoc, hsent]
  split
  · rw [hstaged.flush hM]
    exact shows_toServe _
  · exact hstaged

omit hM in
theorem item_array (args : Args) : st.item M (.array args) =
    if hijacks args then { st.flush M with closed := true }
    else if isPureWrite args && M.mayBatch st.conn then st.join M args
    else (st.flush M).execute M args := rfl

variable {pure : Bool}

theorem Shows.item (h : st.Shows M p)
    (hpending : pure = false → st.batch = none) (hi : Unmixed ending pure (i :: is)) :
    ∃ pure', Unmixed ending pure' is ∧ (st.item M i).Shows M (p.item M i) ∧
      (pure' = false → (st.item M i).batch = none) := by
  cases i with
  | inline args =>
    cases args with
    | nil => exact ⟨pure, hi, h, hpending⟩
    | cons name args =>
      obtain ⟨hpure, his⟩ := hi
      refine ⟨false, his, ?_, fun _ => ?_⟩
      · rw [h.eq_toServe (hpending hpure)]
        exact shows_toServe (p.execute M (name :: args))
      · rw [h.eq_toServe (hpending hpure)]
        rfl
  | array args =>
    refine ⟨isPureWrite args, hi, ?_, fun hpure => ?_⟩
    · rw [item_array, PlainConn.item_array]
      split
      · rw [h.flush hM]
        exact shows_toServe ({ p with closed := true } : PlainConn γ)
      split
      · next hbatch => exact h.join hM (and_eq_true _ _ ▸ hbatch).1
      · rw [h.flush hM]
        exact shows_toServe (p.execute M args)
    rw [item_array, hpure, h.flush hM]
    split
    · rfl
    · rfl

theorem Shows.batch_of_closed (h : st.Shows M p) (hopen : p.closed = false)
    (hclosed : (st.item M i).closed) : (st.item M i).batch = none := by
  have hst : st.closed = false := h.closed.trans hopen
  cases i with
  | inline args =>
    cases args with
    | _ => cases hst.symm.trans hclosed
  | array args =>
    rw [item_array] at hclosed ⊢
    split
    · exact batch_flush st
    · next hhijack =>
      rw [if_neg hhijack] at hclosed
      split
      · next hbatch =>
        rw [if_pos hbatch, (h.join hM (and_eq_true _ _ ▸ hbatch).1).closed] at hclosed
        cases hopen.symm.trans hclosed
      · exact batch_flush st

theorem Shows.items (h : st.Shows M p) (hopen : p.closed = false)
    (hpending : pure = false → st.batch = none) (his : Unmixed ending pure is) :
    (st.items M is).Shows M (p.items M is) ∧
      ((p.items M is).closed → (st.items M is).batch = none) ∧
      ((p.items M is).closed = false → ∃ pure', Unmixed ending pure' [] ∧
        (pure' = false → (st.items M is).batch = none)) := by
  induction is generalizing st p pure with
  | nil =>
    exact ⟨h, fun hclosed => (by cases hopen.symm.trans hclosed), fun _ => ⟨pure, his, hpending⟩⟩
  | cons i is ih =>
    obtain ⟨pure', his', hshows, hpending'⟩ := h.item hM hpending his
    unfold items PlainConn.items
    rw [hshows.closed]
    cases hclosed : (p.item M i).closed with
    | true =>
      refine ⟨hshows, fun _ => h.batch_of_closed hM hopen (hshows.closed.trans hclosed),
          fun hno => ?_⟩
      cases hclosed.symm.trans hno
    | false => exact ih hshows hclosed hpending' his'

/-! ### Reads -/

theorem drain_toServe {parseF64 : String → Option UInt64} {p : PlainConn γ}
    (hopen : p.closed = false) {buf : List Char}
    (h : Unmixed ((serveFramer parseF64).drain buf).2 false ((serveFramer parseF64).drain buf).1) :
    ((p.toServe : ServeConn γ ρ).drain M parseF64 buf).1 =
        (p.oneByOne M ((serveFramer parseF64).drain buf)).toServe ∧
      ∀ rest, ((serveFramer parseF64).drain buf).2 = .closed rest →
        (p.oneByOne M ((serveFramer parseF64).drain buf)).closed = false →
        ((p.toServe : ServeConn γ ρ).drain M parseF64 buf).2 = rest := by
  unfold drain oneByOne
  generalize (serveFramer parseF64).drain buf = read at h ⊢
  obtain ⟨is, ending⟩ := read
  obtain ⟨hshows, hcloses, hend⟩ := (shows_toServe p).items hM hopen (fun _ => rfl) h
  simp only [hshows.closed]
  cases hclosed : (p.items M is).closed with
  | true =>
    refine ⟨hshows.eq_toServe (hcloses hclosed), fun rest _ hno => ?_⟩
    cases hclosed.symm.trans hno
  | false =>
    obtain ⟨pure, hending, hpending⟩ := hend hclosed
    cases ending with
    | error e =>
      refine ⟨?_, nofun⟩
      have heq : (p.toServe : ServeConn γ ρ).items M is = (p.items M is).toServe :=
        hshows.eq_toServe (hpending hending)
      simp only [false_eq_true, ↓reduceIte, heq]
      rfl
    | closed rest =>
      have hsmall : tooBig rest = false := hending
      simp only [false_eq_true, ↓reduceIte, hsmall]
      refine ⟨hshows.flush hM, fun rest' hrest _ => ?_⟩
      cases hrest
      rfl

end

end ServeConn

namespace PlainConn

variable {M}

theorem items_append (is js : List ServeItem) (hopen : (p.items M is).closed = false) :
    p.items M (is ++ js) = (p.items M is).items M js := by
  induction is generalizing p with
  | nil => rfl
  | cons i is ih =>
    unfold items at hopen
    rw [cons_append, items, items]
    split
    · next hclosed =>
      rw [if_pos hclosed] at hopen
      cases hopen.symm.trans hclosed
    · next hclosed =>
      rw [if_neg hclosed] at hopen
      exact ih hopen

theorem items_append_of_closed (is js : List ServeItem) (hopen : p.closed = false)
    (hclosed : (p.items M is).closed) : p.items M (is ++ js) = p.items M is := by
  induction is generalizing p with
  | nil => cases hopen.symm.trans hclosed
  | cons i is ih =>
    unfold items at hclosed
    rw [cons_append, items, items]
    split
    · rfl
    · next hno =>
      rw [if_neg hno] at hclosed
      exact ih (eq_false_iff.mpr hno) hclosed

theorem closed_oneByOne_error (is : List ServeItem) (e : ServeError) :
    (p.oneByOne M (is, .error e)).closed := by
  unfold oneByOne
  split
  · assumption
  · rfl

theorem oneByOne_closed (is : List ServeItem) (rest : List Char) :
    p.oneByOne M (is, .closed rest) = p.items M is := ite_self _

theorem oneByOne_append (is : List ServeItem) (read : List ServeItem × Ending Char ServeError)
    (hopen : (p.items M is).closed = false) :
    p.oneByOne M (is ++ read.1, read.2) = (p.items M is).oneByOne M read := by
  unfold oneByOne
  rw [items_append is read.1 hopen]

end PlainConn

/-- **The pipeline is exact**: however a stream is cut into reads, replies and store are those of
its commands one at a time, ending with the protocol error if there is one. -/
theorem pipeline_exact {M : ServeCommands γ ρ} (hM : M.Calm) (parseF64 : String → Option UInt64)
    (p : PlainConn γ) (hopen : p.closed = false) (buf : List Char) (chunks : List (Chunk Char))
    (h : UnmixedReads parseF64 buf chunks) :
    (p.toServe : ServeConn γ ρ).serve M parseF64 buf chunks =
      (p.oneByOne M ((serveFramer parseF64).drain (buf ++ Framer.stream chunks))).toServe := by
  induction chunks generalizing p buf with
  | nil =>
    rw [stream, map_nil, flatten_nil, append_nil]
    exact (drain_toServe hM hopen h).1
  | cons c chunks ih =>
    obtain ⟨hread, hrest⟩ := h
    obtain ⟨hdrain, hleft⟩ := drain_toServe hM hopen hread
    have hstream : stream (c :: chunks) = c.1 ++ stream chunks := by
      rw [stream, map_cons, flatten_cons, ← stream]
    rw [hstream, drain_append, serve]
    simp only [hdrain]
    generalize (serveFramer parseF64).drain buf = read at *
    obtain ⟨is, ending⟩ := read
    cases ending with
    | error e => exact if_pos (closed_oneByOne_error is e)
    | closed rest =>
      rw [oneByOne_closed] at hleft ⊢
      dsimp only
      cases hclosed : (p.items M is).closed with
      | true =>
        have hyes : ((p.items M is).toServe : ServeConn γ ρ).closed = true := hclosed
        rw [if_pos hyes, oneByOne,
          items_append_of_closed is _ hopen hclosed, if_pos hclosed]
      | false =>
        obtain ⟨hroom, hreads⟩ := hrest
        have hno : ¬ ((p.items M is).toServe : ServeConn γ ρ).closed = true :=
          Bool.eq_false_iff.mp hclosed
        rw [if_neg hno, hleft rest rfl hclosed, if_neg (not_lt.mpr hroom),
          ih (p.items M is) hclosed _ hreads, append_assoc, oneByOne_append is _ hclosed]

/-! ## One command that overtakes -/

def setGet : ServeCommands Unit String where
  execute _ args :=
    match args with
    | [_, k, v] => .put (k.toList.map fun c => c.toNat.toUInt8)
        (v.toList.map fun c => c.toNat.toUInt8)
        (.ret ("+OK", ()))
    | [_, k] => .get (k.toList.map fun c => c.toNat.toUInt8) fun v =>
        .ret (if v.isSome then "$1" else "$-1", ())
    | _ => .ret ("-ERR", ())
  mayBatch _ := true
  isError r := r.toList.head? == some '-'
  encode _ r := r.toList ++ ['\r', '\n']
  commitFailed _ := none

theorem setGet_calm : setGet.Calm := ⟨fun _ _ _ _ => rfl, fun _ => rfl⟩

def setGetConn : PlainConn Unit := ⟨(), .empty, [], false⟩

def setFrame : List Char := "*3\r\n$3\r\nSET\r\n$1\r\nk\r\n$1\r\nv\r\n".toList

def getFrame : List Char := "*2\r\n$3\r\nGET\r\n$1\r\nk\r\n".toList

def rowK : Bytes := [107]

/-- **A command that overtakes**: an inline `GET` behind a `SET` in one read does not see it; a
malformed frame behind it closes the connection with the `SET` neither answered nor applied. -/
theorem pipeline_overtakes :
    ((setGetConn.toServe.serve setGet (fun _ => none) (setFrame ++ "GET k\r\n".toList) []).sent =
        "$-1\r\n+OK\r\n".toList ∧
      (setGetConn.oneByOne setGet ((serveFramer fun _ => none).drain
        (setFrame ++ "GET k\r\n".toList))).sent = "+OK\r\n$1\r\n".toList) ∧
    ((setGetConn.toServe.serve setGet (fun _ => none) (setFrame ++ "*x\r\n".toList) []).sent =
        "-ERR Protocol error\r\n".toList ∧
      (setGetConn.toServe.serve setGet (fun _ => none) (setFrame ++ "*x\r\n".toList) []).store.get
        rowK = none ∧
      (setGetConn.oneByOne setGet ((serveFramer fun _ => none).drain
        (setFrame ++ "*x\r\n".toList))).sent = "+OK\r\n-ERR Protocol error\r\n".toList) := by
  decide +kernel

theorem pipeline_exact_array :
    (setGetConn.toServe.serve setGet (fun _ => none) (setFrame ++ getFrame) []).sent =
        "+OK\r\n$1\r\n".toList ∧
      setGetConn.toServe.serve setGet (fun _ => none) (setFrame ++ getFrame) [] =
        (setGetConn.oneByOne setGet ((serveFramer fun _ => none).drain
          (setFrame ++ getFrame ++ Framer.stream []))).toServe := by
  have hreads : UnmixedReads (fun _ => none) (setFrame ++ getFrame) [] := by
    unfold UnmixedReads
    decide +kernel
  exact ⟨by decide +kernel,
    pipeline_exact setGet_calm (fun _ => none) setGetConn rfl (setFrame ++ getFrame) [] hreads⟩

end Flint
