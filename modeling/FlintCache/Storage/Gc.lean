import FlintCache.Lib.Machine
import FlintCache.Storage.Keyspace

/-!
# Storage/Gc — the sweeper among the writers

The **sweeper** reclaims the rows of deleted and expired keys: it scans for a row that looks dead,
takes that key's lock, judges the row again and deletes it if it is still dead.  The machine runs
two stores side by side, one that is swept and a *plain* twin that is not; every writer is a program
that runs on both, and touches subkey rows only under a version it has loaded or minted.  A read
takes no lock: it loads a key's metadata, and later walks the rows of the version it found.
-/

namespace Flint

section

open List Option Bool
open Option (filter_eq_some_iff ite_none_right_eq_some)
open Function (update update_of_ne update_self)

/-! ## Rows and the programs over them -/

/-- A metadata row: its expiry, the version that `ComplexMeta::decode` reads off it and whether its
value lives in subkey rows.  A plain string's payload may decode to a version, which means nothing.
-/
structure KeyMeta (α : Type) where
  expireMs : ℕ
  version : Option ℕ
  rowed : Bool
  payload : α

namespace KeyMeta

variable {α : Type}

def isExpired (m : KeyMeta α) (now : ℕ) : Bool := m.expireMs != 0 && m.expireMs ≤ now

def current (m : KeyMeta α) : Option ℕ := if m.rowed then m.version else none

variable {m : KeyMeta α}

theorem isExpired_mono {now later : ℕ} (h : now ≤ later)
    (hm : m.isExpired now) : m.isExpired later := by
  simp only [isExpired, and_eq_true, decide_eq_true_eq] at hm ⊢
  exact ⟨hm.1, hm.2.trans h⟩

theorem version_of_current {v : ℕ} (h : m.current = some v) : m.version = some v := by
  unfold current at h
  split at h
  · exact h
  · cases h

end KeyMeta

/-- What a writer does to the store, and how it goes on from what it reads. -/
inductive StoreProg (κ φ α : Type)
  | done
  /-- `read_meta`: an expired row is deleted and read as none. -/
  | load (k : κ) (next : Option (KeyMeta α) → StoreProg κ φ α)
  | walk (k : κ) (v : ℕ) (next : (φ → Option α) → StoreProg κ φ α)
  | mint (k : κ) (next : ℕ → StoreProg κ φ α)
  | setMeta (k : κ) (m : Option (KeyMeta α)) (next : StoreProg κ φ α)
  | setRow (k : κ) (v : ℕ) (f : φ) (x : Option α) (next : StoreProg κ φ α)

/-- A store with the writers that run on it. -/
structure RowWorld (κ φ α : Type) where
  metas : κ → Option (KeyMeta α)
  rows : κ → ℕ → φ → Option α
  last : ℕ
  progs : ℕ → StoreProg κ φ α
  /-- The versions of a key that a writer has loaded or minted since it took the key's lock. -/
  own : ℕ → κ → List ℕ

variable {κ φ α : Type}

namespace RowWorld

variable [DecidableEq κ] [DecidableEq φ]

def live (w : RowWorld κ φ α) (now : ℕ) (k : κ) : Option (KeyMeta α) :=
  (w.metas k).filter fun m => !m.isExpired now

/-- What a read answers that has loaded this metadata: it, and the rows of its version. -/
def answer (w : RowWorld κ φ α) (k : κ) (m : Option (KeyMeta α)) :
    Option (KeyMeta α × Option (φ → Option α)) :=
  m.map fun m => (m, m.current.map (w.rows k))

/-- What a read of a key finds that nothing comes between. -/
def view (w : RowWorld κ φ α) (now : ℕ) (k : κ) : Option (KeyMeta α × Option (φ → Option α)) :=
  w.answer k (w.live now k)

def withMeta (w : RowWorld κ φ α) (k : κ) (m : Option (KeyMeta α)) : RowWorld κ φ α :=
  { w with metas := update w.metas k m }

def withRow (w : RowWorld κ φ α) (k : κ) (v : ℕ) (f : φ) (x : Option α) : RowWorld κ φ α :=
  { w with rows := fun k' v' f' => if k' = k ∧ v' = v ∧ f' = f then x else w.rows k' v' f' }

def withProg (w : RowWorld κ φ α) (c : ℕ) (p : StoreProg κ φ α) : RowWorld κ φ α :=
  { w with progs := update w.progs c p }

def claim (w : RowWorld κ φ α) (c : ℕ) (k : κ) (v : Option ℕ) : RowWorld κ φ α :=
  { w with own := fun c' k' => if c' = c ∧ k' = k then v.toList ++ w.own c k else w.own c' k' }

def disown (w : RowWorld κ φ α) (c : ℕ) (k : κ) : RowWorld κ φ α :=
  { w with own := fun c' k' => if c' = c ∧ k' = k then [] else w.own c' k' }

def expire (w : RowWorld κ φ α) (now : ℕ) (k : κ) : RowWorld κ φ α := w.withMeta k (w.live now k)

def nextVersion (w : RowWorld κ φ α) (now : ℕ) : ℕ := max w.last (now * 2 ^ 20) + 1

/-- A metadata row may be put under a version of one's own, or with no rows to its name. -/
def mayPut (w : RowWorld κ φ α) (c : ℕ) (k : κ) (m : Option (KeyMeta α)) : Bool :=
  match m.bind KeyMeta.current with
  | none => true
  | some v => (w.own c k).contains v

def act (w : RowWorld κ φ α) (now : ℕ) (holds : κ → Bool) (c : ℕ) :
    StoreProg κ φ α → Option (RowWorld κ φ α)
  | .done => none
  | .load k next =>
    if holds k then
      some ((((w.expire now k).claim c k ((w.live now k).bind KeyMeta.current))).withProg c
        (next (w.live now k)))
    else none
  | .walk k v next =>
    if holds k && (w.own c k).contains v then some (w.withProg c (next (w.rows k v))) else none
  | .mint k next =>
    if holds k then
      some ((({ w with last := w.nextVersion now }).claim c k (some (w.nextVersion now))).withProg c
        (next (w.nextVersion now)))
    else none
  | .setMeta k m next =>
    if holds k && w.mayPut c k m then some ((w.withMeta k m).withProg c next) else none
  | .setRow k v f x next =>
    if holds k && (w.own c k).contains v then some ((w.withRow k v f x).withProg c next) else none

def run (w : RowWorld κ φ α) (now : ℕ) (holds : κ → Bool) (c : ℕ) : Option (RowWorld κ φ α) :=
  w.act now holds c (w.progs c)

end RowWorld

/-! ## The sweep -/

/-- Who holds a key's lock. -/
inductive GcHolder
  | sweeper
  | writer (c : ℕ)
  deriving DecidableEq, Repr

/-- A row the sweeper looks at: metadata in its first pass, subkey and index rows in its second. -/
inductive GcTarget (κ φ : Type)
  | header (k : κ)
  | row (k : κ) (v : ℕ) (f : φ)
  deriving DecidableEq, Repr

/-- Where the sweeper is with the row it looks at. -/
inductive GcPhase (κ φ : Type)
  | idle
  | scanned (t : GcTarget κ φ)
  | locked (t : GcTarget κ φ)
  | condemned (t : GcTarget κ φ)
  | finished (t : GcTarget κ φ)

def GcPhase.holding {κ φ : Type} : GcPhase κ φ → Option (GcTarget κ φ)
  | .idle => none
  | .scanned _ => none
  | .locked t => some t
  | .condemned t => some t
  | .finished t => some t

/-- One step of the clock, of the sweeper, of a writer or of a read. -/
inductive GcEvent (κ φ α : Type)
  | tick (d : ℕ)
  | start
  | scan (t : GcTarget κ φ)
  | lock
  | judge
  | delete
  | release
  | acquire (c : ℕ) (k : κ)
  | begin (c : ℕ) (p : StoreProg κ φ α)
  | write (c : ℕ)
  | finish (c : ℕ) (k : κ)
  | expire (k : κ)
  | look (c : ℕ) (k : κ)
  | readRows (c : ℕ)

namespace GcTarget

variable [DecidableEq κ] [DecidableEq φ]

def key : GcTarget κ φ → κ
  | .header k => k
  | .row k _ _ => k

/-- The judgement: expired metadata, or a row of a version that its key's metadata is not of. -/
def judge (w : RowWorld κ φ α) (now : ℕ) : GcTarget κ φ → Bool
  | .header k => (w.metas k).any fun m => m.isExpired now
  | .row k v _ => (w.live now k).bind KeyMeta.version != some v

def delete (w : RowWorld κ φ α) : GcTarget κ φ → RowWorld κ φ α
  | .header k => w.withMeta k none
  | .row k v f => w.withRow k v f none

def Dead (w : RowWorld κ φ α) (now : ℕ) : GcTarget κ φ → Prop
  | .header k => w.live now k = none
  | .row k v _ => ∀ m, w.live now k = some m → m.current ≠ some v

end GcTarget

/-- A read under way: its key, and the metadata it loaded from the one store and the other. -/
structure GcLook (κ α : Type) where
  key : κ
  swept : Option (KeyMeta α)
  plain : Option (KeyMeta α)

/-- The swept store and its twin, the locks, the clock, the sweeper, the reads under way and what
the others answered, on the one store and on the other. -/
structure GcNode (κ φ α : Type) where
  clock : ℕ
  locks : κ → Option GcHolder
  swept : RowWorld κ φ α
  plain : RowWorld κ φ α
  now : ℕ
  phase : GcPhase κ φ
  looked : ℕ → Option (GcLook κ α)
  answers : List (Option (KeyMeta α × Option (φ → Option α)) × Option
      (KeyMeta α × Option (φ → Option α)))

namespace GcNode

variable [DecidableEq κ] [DecidableEq φ]

def holds (s : GcNode κ φ α) (c : ℕ) (k : κ) : Bool := s.locks k = some (.writer c)

def both (s : GcNode κ φ α) (f : RowWorld κ φ α → RowWorld κ φ α) : GcNode κ φ α :=
  { s with swept := f s.swept, plain := f s.plain }

def idle (s : GcNode κ φ α) (c : ℕ) : Bool :=
  match s.swept.progs c with
  | .done => true
  | _ => false

def step (s : GcNode κ φ α) : GcEvent κ φ α → Option (GcNode κ φ α)
  | .tick d => some { s with clock := s.clock + d }
  | .start =>
    match s.phase with
    | .idle => some { s with now := s.clock }
    | _ => none
  -- The first judgement, without a lock and perhaps on a stale row, binds nothing: any row may be
  -- a candidate.
  | .scan t =>
    match s.phase with
    | .idle => some { s with phase := .scanned t }
    | _ => none
  | .lock =>
    match s.phase with
    | .scanned t =>
      if s.locks t.key = none then
        some { s with phase := .locked t, locks := update s.locks t.key (some .sweeper) }
      else none
    | _ => none
  | .judge =>
    match s.phase with
    | .locked t =>
      some { s with phase := if t.judge s.swept s.now then .condemned t else .finished t }
    | _ => none
  | .delete =>
    match s.phase with
    | .condemned t => some { s with phase := .finished t, swept := t.delete s.swept }
    | _ => none
  | .release =>
    match s.phase with
    | .finished t => some { s with phase := .idle, locks := update s.locks t.key none }
    | _ => none
  | .acquire c k =>
    if s.locks k = none then some { s with locks := update s.locks k (some (.writer c)) }
    else none
  | .begin c p => if s.idle c then some (s.both fun w => w.withProg c p) else none
  | .write c =>
    (s.swept.run s.clock (s.holds c) c).map fun w =>
      { s with swept := w, plain := (s.plain.run s.clock (s.holds c) c).getD s.plain }
  | .finish c k =>
    if s.idle c && s.holds c k then
      some { s.both (fun w => w.disown c k) with locks := update s.locks k none }
    else none
  | .expire k => some (s.both fun w => w.expire s.clock k)
  | .look c k =>
    some { s with
      looked := update s.looked c (some ⟨k, s.swept.live s.clock k, s.plain.live s.clock k⟩) }
  | .readRows c =>
    (s.looked c).map fun r =>
      { s with
        looked := update s.looked c none
        answers := (s.swept.answer r.key r.swept, s.plain.answer r.key r.plain) :: s.answers }

/-- The sweep deletes no row of a version that a read has loaded and not yet walked. -/
def unread (s : GcNode κ φ α) : GcEvent κ φ α → Prop
  | .delete => ∀ k v f, s.phase = .condemned (.row k v f) →
      ∀ c r, s.looked c = some r → r.key = k → r.swept.bind KeyMeta.current ≠ some v
  | _ => True

end GcNode

/-- **The sweeper among the writers**, from a store without versions to come. -/
def gcNode (κ φ α : Type) [DecidableEq κ] [DecidableEq φ] :
    Machine (GcNode κ φ α) (GcEvent κ φ α) where
  init s :=
    s.swept = s.plain ∧ s.now ≤ s.clock ∧ s.phase = .idle ∧ (∀ k, s.locks k = none) ∧
      (∀ c, s.looked c = none) ∧ s.answers = [] ∧
      (∀ c k, s.plain.own c k = []) ∧
      (∀ k m v, s.plain.metas k = some m → m.current = some v → v ≤ s.plain.last) ∧
      ∀ k v f, s.plain.last < v → s.plain.rows k v f = none
  step := GcNode.step

/-! ## The two stores agree where a read looks -/

open RowWorld KeyMeta

namespace RowWorld

variable [DecidableEq κ] [DecidableEq φ] {S T w : RowWorld κ φ α} {now : ℕ}
  {locks : κ → Option GcHolder}

/-- **The twins agree**: on their writers, on live metadata, and on the rows that are current or in
a writer's hands; of versions to come neither has any. -/
structure Twin (now : ℕ) (locks : κ → Option GcHolder) (S T : RowWorld κ φ α) : Prop where
  progs : S.progs = T.progs
  own : S.own = T.own
  last : S.last = T.last
  live : ∀ k, S.live now k = T.live now k
  current : ∀ k m v, S.live now k = some m → m.current = some v →
    v ≤ S.last ∧ S.rows k v = T.rows k v
  held : ∀ c k v, v ∈ S.own c k → locks k = some (.writer c) ∧ v ≤ S.last
  owned : ∀ c k v, v ∈ S.own c k → S.rows k v = T.rows k v
  fresh : ∀ k v f, S.last < v → S.rows k v f = none ∧ T.rows k v f = none

omit [DecidableEq κ] [DecidableEq φ] in
theorem Twin.view (h : Twin now locks S T) (k : κ) : S.view now k = T.view now k := by
  unfold RowWorld.view RowWorld.answer
  rw [← h.live k]
  cases hlive : S.live now k with
  | none => rfl
  | some m =>
    cases hcurrent : m.current with
    | none => simp [hcurrent]
    | some v => simp [hcurrent, (h.current k m v hlive hcurrent).2]

omit [DecidableEq φ] in
theorem live_withMeta (k k' : κ) (m : Option (KeyMeta α)) : (w.withMeta k m).live now k' =
      if k' = k then m.filter fun m => !m.isExpired now else w.live now k' := by
  unfold live withMeta
  by_cases h : k' = k
  · rw [if_pos h, h]
    exact congrArg _ (update_self ..)
  · rw [if_neg h]
    exact congrArg _ (update_of_ne h ..)

omit [DecidableEq φ] in
theorem live_expire (k k' : κ) : (w.expire now k).live now k' = w.live now k' := by
  unfold expire
  rw [live_withMeta]
  split
  · next h => simp only [h, live, Option.filter_filter, Bool.and_self]
  · rfl

variable {k k' : κ} {v v' : ℕ}

theorem rows_withRow_of_ne (f : φ) (x : Option α) (h : k' ≠ k ∨ v' ≠ v) :
    (w.withRow k v f x).rows k' v' = w.rows k' v' := by
  funext f'
  refine if_neg fun hall => ?_
  obtain h | h := h
  · exact h hall.1
  · exact h hall.2.1

theorem rows_withRow_congr (f : φ) (x : Option α) (h : S.rows k' v' = T.rows k' v') :
    (S.withRow k v f x).rows k' v' = (T.withRow k v f x).rows k' v' := by
  funext f'
  show (if _ then x else S.rows k' v' f') = if _ then x else T.rows k' v' f'
  rw [h]

omit [DecidableEq φ] in
theorem mem_own_claim {c c' : ℕ} {v : Option ℕ} {u : ℕ}
    (h : u ∈ (w.claim c k v).own c' k') : u ∈ w.own c' k' ∨ (c' = c ∧ k' = k ∧ v = some u) := by
  simp only [claim] at h
  split at h
  · next heq =>
    obtain ⟨rfl, rfl⟩ := heq
    rw [mem_append, mem_toList] at h
    obtain h | h := h
    · exact .inr ⟨rfl, rfl, h⟩
    · exact .inl h
  · exact .inl h

/-! ### What keeps them so -/

omit [DecidableEq κ] [DecidableEq φ] in
theorem live_of_later {later : ℕ} (hle : now ≤ later) (k : κ) :
    w.live later k = (w.live now k).filter fun m => !m.isExpired later := by
  unfold live
  rw [Option.filter_filter]
  refine congrArg (fun p => (w.metas k).filter p) ?_
  funext m
  cases hnow : m.isExpired now with
  | false => simp
  | true => simp [isExpired_mono hle hnow]

variable {k : κ}

omit [DecidableEq κ] [DecidableEq φ] in
theorem live_some_of_later {later : ℕ} (hle : now ≤ later)
    (h : w.live later k = some m) : w.live now k = some m := by
  rw [live_of_later hle] at h
  exact (filter_eq_some_iff.mp h).1

namespace Twin

variable (h : Twin now locks S T)
include h

omit [DecidableEq κ] [DecidableEq φ] in
theorem later {later : ℕ} (hle : now ≤ later) : Twin later locks S T where
  __ := h
  live k := by rw [live_of_later hle, live_of_later hle, h.live k]
  current k m v hlive := h.current k m v (live_some_of_later hle hlive)

omit [DecidableEq κ] [DecidableEq φ] in
theorem relock {locks' : κ → Option GcHolder}
    (hlocks : ∀ c k, locks k = some (.writer c) → locks' k = some (.writer c)) :
    Twin now locks' S T :=
  { h with held := fun c k v hv => ⟨hlocks c k (h.held c k v hv).1, (h.held c k v hv).2⟩ }

omit [DecidableEq φ] in
theorem relock_at (hk : ∀ c, locks k ≠ some (.writer c))
    (holder : Option GcHolder) : Twin now (update locks k holder) S T := by
  refine h.relock fun c k' hk' => ?_
  have hne : k' ≠ k := by
    rintro rfl
    exact hk c hk'
  exact (update_of_ne hne ..).trans hk'

omit [DecidableEq κ] [DecidableEq φ] in
theorem withProg (c : ℕ) (p : StoreProg κ φ α) : Twin now locks (S.withProg c p) (T.withProg c p) :=
  { h with progs := by rw [RowWorld.withProg, RowWorld.withProg, h.progs] }

omit [DecidableEq φ] in
theorem expire (k : κ) : Twin now locks (S.expire now k) (T.expire now k) where
  __ := h
  live k' := by rw [live_expire, live_expire, h.live k']
  current k' m v hlive := by
    rw [live_expire] at hlive
    exact h.current k' m v hlive

end Twin

variable {c : ℕ}

omit [DecidableEq φ] in
theorem Twin.claim (h : Twin now locks S T) {v : Option ℕ} (hlock : locks k = some (.writer c))
    (hv : ∀ u, v = some u → u ≤ S.last ∧ S.rows k u = T.rows k u) :
    Twin now locks (S.claim c k v) (T.claim c k v) where
  __ := h
  own := by rw [RowWorld.claim, RowWorld.claim, h.own]
  held c' k' u hu := by
    obtain hu | ⟨rfl, rfl, heq⟩ := mem_own_claim hu
    · exact h.held c' k' u hu
    · exact ⟨hlock, (hv u heq).1⟩
  owned c' k' u hu := by
    obtain hu | ⟨rfl, rfl, heq⟩ := mem_own_claim hu
    · exact h.owned c' k' u hu
    · exact (hv u heq).2

omit [DecidableEq φ] in
theorem mem_own_disown {c c' : ℕ} {u : ℕ} (h : u ∈ (w.disown c k).own c' k') :
    u ∈ w.own c' k' ∧ ¬(c' = c ∧ k' = k) := by
  simp only [disown] at h
  split at h
  · cases h
  · next hne => exact ⟨h, hne⟩

namespace Twin

variable (h : Twin now locks S T) {k : κ}
include h

omit [DecidableEq φ] in
theorem disown (hlock : locks k = some (.writer c)) :
    Twin now (update locks k none) (S.disown c k) (T.disown c k) where
  __ := h
  own := by rw [RowWorld.disown, RowWorld.disown, h.own]
  held c' k' v hv := by
    obtain ⟨hv, hne⟩ := mem_own_disown hv
    obtain ⟨hlock', hle⟩ := h.held c' k' v hv
    have hk : k' ≠ k := by
      rintro rfl
      rw [hlock] at hlock'
      exact hne ⟨(GcHolder.writer.inj (some.inj hlock')).symm, rfl⟩
    exact ⟨(update_of_ne hk ..).trans hlock', hle⟩
  owned c' k' v hv := h.owned c' k' v (mem_own_disown hv).1

omit [DecidableEq φ] in
theorem mint (hlock : locks k = some (.writer c)) :
    Twin now locks (({ S with last := S.nextVersion now }).claim c k (some (S.nextVersion now)))
      (({ T with last := T.nextVersion now }).claim c k (some (T.nextVersion now))) := by
  have hlt : S.last < S.nextVersion now := Nat.lt_succ_of_le (le_max_left _ _)
  have hnext : S.nextVersion now = T.nextVersion now := by rw [nextVersion, nextVersion, h.last]
  have hlast : Twin now locks { S with last := S.nextVersion now }
      { T with last := S.nextVersion now } :=
    { h with
      last := rfl
      current := fun k m v hlive hcurrent =>
        (h.current k m v hlive hcurrent).imp_left fun hle => hle.trans hlt.le
      held := fun c k v hv => (h.held c k v hv).imp_right fun hle => hle.trans hlt.le
      fresh := fun k v f hv => h.fresh k v f (hlt.trans hv) }
  rw [← hnext]
  refine hlast.claim hlock fun u hu => ?_
  cases hu
  refine ⟨le_rfl, ?_⟩
  funext f
  obtain ⟨hS, hT⟩ := h.fresh k _ f hlt
  exact hS.trans hT.symm

omit [DecidableEq φ] in
theorem withMeta {m : Option (KeyMeta α)}
    (hm : S.mayPut c k m) : Twin now locks (S.withMeta k m) (T.withMeta k m) where
  __ := h
  live k' := by rw [live_withMeta, live_withMeta, h.live k']
  current k' m' v hlive hcurrent := by
    rw [live_withMeta] at hlive
    split at hlive
    · next heq =>
      obtain rfl := heq
      have hbind : m.bind KeyMeta.current = some v := by
        rw [(filter_eq_some_iff.mp hlive).1]
        exact hcurrent
      rw [mayPut, hbind] at hm
      have hown : v ∈ S.own c k' := contains_iff_mem.mp hm
      exact ⟨(h.held c k' v hown).2, h.owned c k' v hown⟩
    · exact h.current k' m' v hlive hcurrent

theorem withRow {v : ℕ} (hv : v ∈ S.own c k) (f : φ)
    (x : Option α) : Twin now locks (S.withRow k v f x) (T.withRow k v f x) where
  __ := h
  current k' m u hlive hcurrent :=
    (h.current k' m u hlive hcurrent).imp_right (rows_withRow_congr f x)
  owned c' k' u hu := rows_withRow_congr f x (h.owned c' k' u hu)
  fresh k' u f' hu := by
    have hne : u ≠ v := ((h.held c k v hv).2.trans_lt hu).ne'
    rw [rows_withRow_of_ne f x (.inr hne), rows_withRow_of_ne f x (.inr hne)]
    exact h.fresh k' u f' hu

end Twin

variable {S' : RowWorld κ φ α} {holds : κ → Bool}

theorem Twin.run (h : Twin now locks S T) (hholds : ∀ k, holds k → locks k = some (.writer c))
    (hrun : S.run now holds c = some S') :
    ∃ T', T.run now holds c = some T' ∧ Twin now locks S' T' := by
  unfold RowWorld.run at hrun ⊢
  rw [← h.progs]
  cases hprog : S.progs c with
  | done =>
    rw [hprog] at hrun
    cases hrun
  | load k next =>
    rw [hprog] at hrun
    obtain ⟨hk, ⟨⟩⟩ := ite_none_right_eq_some.mp hrun
    refine ⟨_, if_pos hk, ?_⟩
    rw [← h.live k]
    refine ((h.expire k).claim (hholds k hk) fun u hu => ?_).withProg c _
    obtain ⟨m, hm, hcurrent⟩ := bind_eq_some_iff.mp hu
    exact h.current k m u hm hcurrent
  | walk k v next =>
    rw [hprog] at hrun
    obtain ⟨hk, ⟨⟩⟩ := ite_none_right_eq_some.mp hrun
    obtain ⟨-, hv⟩ := and_eq_true _ _ ▸ hk
    refine ⟨_, if_pos (h.own ▸ hk), ?_⟩
    rw [← h.owned c k v (contains_iff_mem.mp hv)]
    exact h.withProg c _
  | mint k next =>
    rw [hprog] at hrun
    obtain ⟨hk, ⟨⟩⟩ := ite_none_right_eq_some.mp hrun
    have hnext : T.nextVersion now = S.nextVersion now := by rw [nextVersion, nextVersion, h.last]
    refine ⟨_, if_pos hk, ?_⟩
    rw [show next (T.nextVersion now) = next (S.nextVersion now) by rw [hnext]]
    exact (h.mint (hholds k hk)).withProg c _
  | setMeta k m next =>
    rw [hprog] at hrun
    obtain ⟨hk, ⟨⟩⟩ := ite_none_right_eq_some.mp hrun
    obtain ⟨-, hm⟩ := and_eq_true _ _ ▸ hk
    refine ⟨_, if_pos ?_, (h.withMeta hm).withProg c _⟩
    rw [← hk, mayPut, mayPut, h.own]
  | setRow k v f x next =>
    rw [hprog] at hrun
    obtain ⟨hk, ⟨⟩⟩ := ite_none_right_eq_some.mp hrun
    obtain ⟨-, hv⟩ := and_eq_true _ _ ▸ hk
    exact ⟨_, if_pos (h.own ▸ hk), (h.withRow (contains_iff_mem.mp hv) f x).withProg c _⟩

/-- A writer changes the rows of a version in the two stores alike. -/
theorem Twin.rows_run (h : Twin now locks S T) (hrun : S.run now holds c = some S')
    (hrows : S.rows k v = T.rows k v) :
    S'.rows k v = ((T.run now holds c).getD T).rows k v := by
  unfold RowWorld.run at hrun ⊢
  rw [← h.progs]
  cases hprog : S.progs c with
  | done =>
    rw [hprog] at hrun
    cases hrun
  | setRow k' v' f x next =>
    rw [hprog] at hrun
    obtain ⟨hk, ⟨⟩⟩ := ite_none_right_eq_some.mp hrun
    rw [RowWorld.act, if_pos (h.own ▸ hk)]
    exact rows_withRow_congr f x hrows
  | _ =>
    rw [hprog] at hrun
    obtain ⟨-, ⟨⟩⟩ := ite_none_right_eq_some.mp hrun
    rw [RowWorld.act]
    split
    · exact hrows
    · exact hrows

theorem live_run (hk : holds k = false)
    (hrun : S.run now holds c = some S') : S'.live now k = S.live now k := by
  have hne {k' : κ} (hk' : holds k') : k ≠ k' := by
    rintro rfl
    rw [hk] at hk'
    cases hk'
  unfold run at hrun
  cases hprog : S.progs c with
  | done =>
    rw [hprog] at hrun
    cases hrun
  | load k' next =>
    rw [hprog] at hrun
    obtain ⟨hk', ⟨⟩⟩ := ite_none_right_eq_some.mp hrun
    exact live_expire k' k
  | setMeta k' m next =>
    rw [hprog] at hrun
    obtain ⟨hk', ⟨⟩⟩ := ite_none_right_eq_some.mp hrun
    exact (live_withMeta k' k m).trans (if_neg (hne (and_eq_true _ _ ▸ hk').1))
  | _ =>
    rw [hprog] at hrun
    obtain ⟨hk', ⟨⟩⟩ := ite_none_right_eq_some.mp hrun
    rfl

theorem Twin.delete (h : Twin now locks S T) {t : GcTarget κ φ}
    (hlock : locks t.key = some .sweeper)
    (hdead : t.Dead S now) : Twin now locks (t.delete S) T := by
  cases t with
  | header k =>
    have hlive (k' : κ) : (S.withMeta k none).live now k' = S.live now k' := by
      rw [live_withMeta]
      split
      · next heq => rw [heq, hdead, filter_none]
      · rfl
    exact
      { h with
        live := fun k' => (hlive k').trans (h.live k')
        current := fun k' m v hm => h.current k' m v ((hlive k').symm.trans hm) }
  | row k v f =>
    have hrows {k' : κ} {v' : ℕ} (hne : k' ≠ k ∨ v' ≠ v) :
        (S.withRow k v f none).rows k' v' = S.rows k' v' := rows_withRow_of_ne f none hne
    refine
      { h with
        current := fun k' m u hm hcurrent => ?_
        owned := fun c k' u hu => ?_
        fresh := fun k' u f' hu => ?_ }
    · have hne : k' ≠ k ∨ u ≠ v := by
        by_contra hall
        obtain ⟨rfl, rfl⟩ := not_or.mp hall |>.imp not_not.mp not_not.mp
        exact hdead m hm hcurrent
      exact (h.current k' m u hm hcurrent).imp_right (hrows hne).trans
    · have hne : k' ≠ k := by
        rintro rfl
        cases hlock.symm.trans (h.held c k' u hu).1
      exact (hrows (.inl hne)).trans (h.owned c k' u hu)
    obtain ⟨hS, hT⟩ := h.fresh k' u f' hu
    refine ⟨?_, hT⟩
    show (if _ then none else S.rows k' u f') = none
    rw [hS, ite_self]

end RowWorld

/-! ## Runs -/

variable {t : GcTarget κ φ}

namespace GcTarget

variable [DecidableEq κ] [DecidableEq φ] {w w' : RowWorld κ φ α} {now clock : ℕ}

omit [DecidableEq κ] [DecidableEq φ] in
theorem dead_of_judge (hle : now ≤ clock) (h : t.judge w now) : t.Dead w clock := by
  cases t with
  | header k =>
    show (w.metas k).filter _ = none
    cases hm : w.metas k with
    | none => rfl
    | some m =>
      have hexpired : m.isExpired now := by rwa [judge, hm] at h
      simp [isExpired_mono hle hexpired]
  | row k v f =>
    intro m hm hcurrent
    have hnow : (w.live now k).bind version = some v := by
      rw [live_some_of_later hle hm]
      exact version_of_current hcurrent
    simp [judge, hnow] at h

omit [DecidableEq κ] [DecidableEq φ] in
theorem Dead.of_live (h : t.Dead w now)
    (hlive : ∀ m, w'.live clock t.key = some m → w.live now t.key = some m) : t.Dead w' clock := by
  cases t with
  | header k =>
    refine eq_none_iff_forall_ne_some.mpr fun m hm => ?_
    cases h.symm.trans (hlive m hm)
  | row k v f => exact fun m hm => h m (hlive m hm)

end GcTarget

open GcNode

namespace GcNode

variable [DecidableEq κ] [DecidableEq φ] {s s' : GcNode κ φ α}

structure Sound (s : GcNode κ φ α) : Prop where
  twin : s.swept.Twin s.clock s.locks s.plain
  le : s.now ≤ s.clock
  locked : ∀ t, s.phase.holding = some t → s.locks t.key = some .sweeper
  dead : ∀ t, s.phase = .condemned t → t.Dead s.swept s.clock

theorem Sound.of_init (h : (gcNode κ φ α).init s) : s.Sound := by
  obtain ⟨heq, hle, hphase, -, -, -, hown, hversions, hfresh⟩ := h
  have hempty {c : ℕ} {k : κ} {v : ℕ} (hv : v ∈ s.plain.own c k) : False := by
    rw [hown] at hv
    cases hv
  refine ⟨?_, hle, fun t ht => ?_, fun t ht => ?_⟩
  · rw [heq]
    exact
      { progs := rfl
        own := rfl
        last := rfl
        live := fun _ => rfl
        current := fun k m v hm hv => ⟨hversions k m v (filter_eq_some_iff.mp hm).1 hv, rfl⟩
        held := fun _ _ _ hv => (hempty hv).elim
        owned := fun _ _ _ _ => rfl
        fresh := fun k v f hv => ⟨hfresh k v f hv, hfresh k v f hv⟩ }
  · rw [hphase] at ht
    cases ht
  · rw [hphase] at ht
    cases ht

variable {S T : RowWorld κ φ α}

namespace Sound

variable (h : s.Sound)
include h

omit [DecidableEq κ] [DecidableEq φ] in
theorem with_worlds (htwin : S.Twin s.clock s.locks T)
    (hlive : ∀ t, s.phase = .condemned t → S.live s.clock t.key = s.swept.live s.clock t.key) :
    ({ s with swept := S, plain := T } : GcNode κ φ α).Sound where
  __ := h
  twin := htwin
  dead t ht := (h.dead t ht).of_live fun _ hm => (hlive t ht).symm.trans hm

omit [DecidableEq φ] in
theorem with_lock {holder : Option GcHolder} (hk : s.locks k ≠ some .sweeper)
    (htwin : S.Twin s.clock (update s.locks k holder) T)
    (hlive : ∀ k, S.live s.clock k = s.swept.live s.clock k) :
    ({ s with swept := S, plain := T, locks := update s.locks k holder } :
      GcNode κ φ α).Sound where
  twin := htwin
  le := h.le
  locked t ht := by
    have hlock := h.locked t ht
    have hne : t.key ≠ k := by
      rintro rfl
      exact hk hlock
    exact (update_of_ne hne ..).trans hlock
  dead t ht := (h.dead t ht).of_live fun m hm => (hlive t.key).symm.trans hm

/-! ### The sweeper's own steps -/

omit [DecidableEq φ] in
theorem lock (hfree : s.locks t.key = none) :
    ({ s with phase := .locked t, locks := update s.locks t.key (some .sweeper) } :
      GcNode κ φ α).Sound where
  twin := h.twin.relock_at (by rw [hfree]; exact nofun) _
  le := h.le
  locked t' ht := by
    cases ht
    exact update_self ..
  dead := nofun

omit [DecidableEq κ] [DecidableEq φ] in
theorem judge (hphase : s.phase = .locked t) :
    ({ s with phase := if t.judge s.swept s.now then .condemned t else .finished t } :
      GcNode κ φ α).Sound := by
  have hlock : s.locks t.key = some .sweeper := h.locked t (by rw [hphase]; rfl)
  split
  · next hjudge =>
    refine ⟨h.twin, h.le, fun t' ht => ?_, fun t' ht => ?_⟩
    · cases ht
      exact hlock
    · cases ht
      exact GcTarget.dead_of_judge h.le hjudge
  · refine ⟨h.twin, h.le, fun t' ht => ?_, nofun⟩
    cases ht
    exact hlock

theorem delete (hphase : s.phase = .condemned t) :
    ({ s with phase := .finished t, swept := t.delete s.swept } : GcNode κ φ α).Sound := by
  have hlock : s.locks t.key = some .sweeper := h.locked t (by rw [hphase]; rfl)
  refine ⟨h.twin.delete hlock (h.dead t hphase), h.le, fun t' ht => ?_, nofun⟩
  cases ht
  exact hlock

omit [DecidableEq φ] in
theorem release (hphase : s.phase = .finished t) :
    ({ s with phase := .idle, locks := update s.locks t.key none } :
      GcNode κ φ α).Sound := by
  have hlock : s.locks t.key = some .sweeper := h.locked t (by rw [hphase]; rfl)
  have htwin := h.twin.relock_at (k := t.key) (by rw [hlock]; exact nofun) none
  exact ⟨htwin, h.le, nofun, nofun⟩

theorem step {e : GcEvent κ φ α} (hstep : s.step e = some s') : s'.Sound := by
  cases e with
  | tick d =>
    cases hstep
    have hle : s.clock ≤ s.clock + d := Nat.le_add_right _ _
    exact
      { twin := h.twin.later hle
        le := h.le.trans hle
        locked := h.locked
        dead := fun t ht => (h.dead t ht).of_live fun m hm => live_some_of_later hle hm }
  | start =>
    cases hphase : s.phase with
    | idle =>
      rw [GcNode.step, hphase] at hstep
      cases hstep
      exact ⟨h.twin, le_rfl, nofun, nofun⟩
    | _ =>
      rw [GcNode.step, hphase] at hstep
      cases hstep
  | scan t =>
    rw [GcNode.step] at hstep
    split at hstep
    · cases hstep
      exact ⟨h.twin, h.le, nofun, nofun⟩
    · cases hstep
  | lock =>
    rw [GcNode.step] at hstep
    split at hstep
    · next t hphase =>
      obtain ⟨hfree, ⟨⟩⟩ := ite_none_right_eq_some.mp hstep
      exact h.lock hfree
    · cases hstep
  | judge =>
    rw [GcNode.step] at hstep
    split at hstep
    · next t hphase =>
      cases hstep
      exact h.judge hphase
    · cases hstep
  | delete =>
    rw [GcNode.step] at hstep
    split at hstep
    · next t hphase =>
      cases hstep
      exact h.delete hphase
    · cases hstep
  | release =>
    rw [GcNode.step] at hstep
    split at hstep
    · next t hphase =>
      cases hstep
      exact h.release hphase
    · cases hstep
  | acquire c k =>
    obtain ⟨hfree, ⟨⟩⟩ := ite_none_right_eq_some.mp hstep
    have htwin := h.twin.relock_at (k := k) (by rw [hfree]; exact nofun) (some (.writer c))
    exact h.with_lock (by rw [hfree]; exact nofun) htwin fun _ => rfl
  | begin c p =>
    obtain ⟨-, ⟨⟩⟩ := ite_none_right_eq_some.mp hstep
    exact h.with_worlds (h.twin.withProg c p) fun _ _ => rfl
  | write c =>
    obtain ⟨S, hrun, rfl⟩ := map_eq_some_iff.mp hstep
    have hheld (k : κ) (hk : s.holds c k) : s.locks k = some (.writer c) :=
      of_decide_eq_true hk
    obtain ⟨T, hplain, htwin⟩ := h.twin.run hheld hrun
    rw [hplain]
    refine h.with_worlds htwin fun t ht => live_run ?_ hrun
    have hlock : s.locks t.key = some .sweeper := h.locked t (by rw [ht]; rfl)
    rw [holds, hlock]
    exact decide_eq_false nofun
  | finish c k =>
    obtain ⟨hidle, ⟨⟩⟩ := ite_none_right_eq_some.mp hstep
    have hlock : s.locks k = some (.writer c) := of_decide_eq_true (and_eq_true _ _ ▸ hidle).2
    exact h.with_lock (by rw [hlock]; exact nofun) (h.twin.disown hlock) fun _ => rfl
  | expire k =>
    cases hstep
    exact h.with_worlds (h.twin.expire k) fun _ _ => live_expire ..
  | look c k =>
    cases hstep
    exact ⟨h.twin, h.le, h.locked, h.dead⟩
  | readRows c =>
    obtain ⟨r, -, rfl⟩ := map_eq_some_iff.mp hstep
    exact ⟨h.twin, h.le, h.locked, h.dead⟩

end Sound

/-! ### Reads under way -/

/-- **Reads agree**: those under way have loaded the same metadata and would find the same rows, and
the others were answered alike. -/
structure ReadsAgree (s : GcNode κ φ α) : Prop where
  loaded : ∀ c r, s.looked c = some r → r.swept = r.plain
  rows : ∀ c r v, s.looked c = some r → r.swept.bind KeyMeta.current = some v →
    s.swept.rows r.key v = s.plain.rows r.key v
  answers : ∀ p ∈ s.answers, p.1 = p.2

namespace ReadsAgree

variable (h : s.ReadsAgree)
include h

omit [DecidableEq κ] [DecidableEq φ] in
theorem with_rows (hlooked : s'.looked = s.looked) (hanswers : s'.answers = s.answers)
    (hrows : ∀ c r v, s.looked c = some r → r.swept.bind KeyMeta.current = some v →
      s.swept.rows r.key v = s.plain.rows r.key v → s'.swept.rows r.key v = s'.plain.rows r.key v) :
    s'.ReadsAgree where
  loaded := by
    rw [hlooked]
    exact h.loaded
  rows c r v hr hv := by
    rw [hlooked] at hr
    exact hrows c r v hr hv (h.rows c r v hr hv)
  answers := by
    rw [hanswers]
    exact h.answers

omit [DecidableEq κ] [DecidableEq φ] in
theorem same_rows (hlooked : s'.looked = s.looked) (hanswers : s'.answers = s.answers)
    (hswept : s'.swept.rows = s.swept.rows) (hplain : s'.plain.rows = s.plain.rows) :
    s'.ReadsAgree := by
  refine h.with_rows hlooked hanswers fun _ r v _ _ hrows => ?_
  rw [hswept, hplain, hrows]

omit [DecidableEq κ] [DecidableEq φ] in
theorem answer_eq {c : ℕ} {r : GcLook κ α} (hr : s.looked c = some r) :
    s.swept.answer r.key r.swept = s.plain.answer r.key r.plain := by
  rw [← h.loaded c r hr]
  cases hm : r.swept with
  | none => rfl
  | some m =>
    cases hcurrent : m.current with
    | none => simp [RowWorld.answer, hcurrent]
    | some v =>
      have hrows := h.rows c r v hr (by rw [hm]; exact hcurrent)
      simp [RowWorld.answer, hcurrent, hrows]

theorem step (hsound : s.Sound) {e : GcEvent κ φ α} (hok : s.unread e)
    (hstep : s.step e = some s') :
    s'.ReadsAgree := by
  cases e with
  | delete =>
    rw [GcNode.step] at hstep
    split at hstep
    · next t hphase =>
      cases hstep
      refine h.with_rows rfl rfl fun c r v hr hv hrows => ?_
      cases t with
      | header k => exact hrows
      | row k u f =>
        have hne : r.key ≠ k ∨ v ≠ u := by
          by_contra hall
          obtain ⟨hkey, rfl⟩ := not_or.mp hall |>.imp not_not.mp not_not.mp
          exact hok k v f hphase c r hr hkey hv
        exact (rows_withRow_of_ne f none hne).trans hrows
    · cases hstep
  | write c =>
    obtain ⟨S, hrun, rfl⟩ := map_eq_some_iff.mp hstep
    exact h.with_rows rfl rfl fun _ r v _ _ hrows => hsound.twin.rows_run hrun hrows
  | look c k =>
    cases hstep
    have hcases {c' : ℕ} {r : GcLook κ α} (hr : update s.looked c
        (some ⟨k, s.swept.live s.clock k, s.plain.live s.clock k⟩) c' = some r) :
        r = ⟨k, s.swept.live s.clock k, s.plain.live s.clock k⟩ ∨ s.looked c' = some r := by
      by_cases hc : c' = c
      · rw [hc, update_self] at hr
        exact .inl (some.inj hr).symm
      · rw [update_of_ne hc] at hr
        exact .inr hr
    refine ⟨fun c' r hr => ?_, fun c' r v hr hv => ?_, h.answers⟩
    · obtain rfl | hr := hcases hr
      · exact hsound.twin.live k
      · exact h.loaded c' r hr
    · obtain rfl | hr := hcases hr
      · obtain ⟨m, hm, hcurrent⟩ := bind_eq_some_iff.mp hv
        exact (hsound.twin.current k m v hm hcurrent).2
      · exact h.rows c' r v hr hv
  | readRows c =>
    obtain ⟨r, hr, rfl⟩ := map_eq_some_iff.mp hstep
    have hleft {c' : ℕ} {r' : GcLook κ α} (hr' : update s.looked c none c' = some r') :
        s.looked c' = some r' := by
      by_cases hc : c' = c
      · rw [hc, update_self] at hr'
        cases hr'
      · rwa [update_of_ne hc] at hr'
    refine ⟨fun c' r' hr' => h.loaded c' r' (hleft hr'),
      fun c' r' v hr' hv => h.rows c' r' v (hleft hr') hv, fun p hp => ?_⟩
    obtain rfl | hp := mem_cons.mp hp
    · exact h.answer_eq hr
    · exact h.answers p hp
  | tick d =>
    cases hstep
    exact h.same_rows rfl rfl rfl rfl
  | acquire c k =>
    obtain ⟨-, ⟨⟩⟩ := ite_none_right_eq_some.mp hstep
    exact h.same_rows rfl rfl rfl rfl
  | begin c p =>
    obtain ⟨-, ⟨⟩⟩ := ite_none_right_eq_some.mp hstep
    exact h.same_rows rfl rfl rfl rfl
  | finish c k =>
    obtain ⟨-, ⟨⟩⟩ := ite_none_right_eq_some.mp hstep
    exact h.same_rows rfl rfl rfl rfl
  | expire k =>
    cases hstep
    exact h.same_rows rfl rfl rfl rfl
  | lock =>
    rw [GcNode.step] at hstep
    split at hstep
    · obtain ⟨-, ⟨⟩⟩ := ite_none_right_eq_some.mp hstep
      exact h.same_rows rfl rfl rfl rfl
    · cases hstep
  | _ =>
    rw [GcNode.step] at hstep
    split at hstep
    · cases hstep
      exact h.same_rows rfl rfl rfl rfl
    · cases hstep

end ReadsAgree

theorem sound_of_reach {ok : GcNode κ φ α → GcEvent κ φ α → Prop} (h : (gcNode κ φ α).Reach ok s) :
    s.Sound :=
  h.invariant (fun _ hinit => .of_init hinit) fun _ _ _ _ hs _ hstep => hs.step hstep

theorem readsAgree_of_reach (h : (gcNode κ φ α).Reach GcNode.unread s) : s.ReadsAgree := by
  refine h.invariant (fun s hinit => ?_) fun _ _ _ hreach hs hok hstep =>
    hs.step (sound_of_reach hreach) hok hstep
  obtain ⟨-, -, -, -, hlooked, hanswers, -⟩ := hinit
  refine ⟨fun c r hr => ?_, fun c r v hr => ?_, ?_⟩
  · rw [hlooked] at hr
    cases hr
  · rw [hlooked] at hr
    cases hr
  · rw [hanswers]
    exact nofun

end GcNode

section SweepSafe

variable [DecidableEq κ] [DecidableEq φ] {s : GcNode κ φ α}

end SweepSafe

def gcStart : GcNode Bool Unit Unit :=
  let w : RowWorld Bool Unit Unit :=
    { metas := fun k => if k then some ⟨5, some 1, true, ()⟩ else some ⟨0, some 2, true, ()⟩
      rows := fun _ v _ => if v ≤ 2 then some () else none
      last := 2
      progs := fun _ => .done
      own := fun _ _ => [] }
  { clock := 9, locks := fun _ => none, swept := w, plain := w, now := 0, phase := .idle,
    looked := fun _ => none, answers := [] }

theorem gcStart_init : (gcNode Bool Unit Unit).init gcStart := by
  refine ⟨rfl, by decide, rfl, fun _ => rfl, fun _ => rfl, rfl, fun _ _ => rfl, ?_,
    fun _ v _ hv => ?_⟩
  · rintro (_ | _) m v hm hv
    · cases hm
      exact (some.inj hv).ge
    · cases hm
      rw [← some.inj hv]
      decide
  · exact if_neg (Nat.not_le.mpr hv)

end

/-! ## What a whole sweep leaves -/

section

open List GcTarget Option KeyMeta

variable {κ φ α : Type} [DecidableEq κ] [DecidableEq φ]

namespace RowWorld

def sweepOne (now : ℕ) (w : RowWorld κ φ α) (t : GcTarget κ φ) : RowWorld κ φ α :=
  if t.judge w now then t.delete w else w

/-- **One sweep**, over the keys and the rows that its two passes visit. -/
def sweep (now : ℕ) (keys : List κ) (rows : List (κ × ℕ × φ)) (w : RowWorld κ φ α) :
    RowWorld κ φ α :=
  rows.foldl (fun w r => w.sweepOne now (.row r.1 r.2.1 r.2.2))
    (keys.foldl (fun w k => w.sweepOne now (.header k)) w)

structure Visits (keys : List κ) (rows : List (κ × ℕ × φ)) (w : RowWorld κ φ α) : Prop where
  keys : ∀ k, k ∈ keys ↔ (w.metas k).isSome = true
  rows : ∀ k v f, (k, v, f) ∈ rows ↔ (w.rows k v f).isSome = true

variable {w : RowWorld κ φ α} {now : ℕ} {keys : List κ} {rows : List (κ × ℕ × φ)}

theorem sweep_headers (w : RowWorld κ φ α) (now : ℕ) (keys : List κ) :
    (keys.foldl (fun w k => w.sweepOne now (.header k)) w).rows = w.rows ∧ ∀ k,
      (keys.foldl (fun w k => w.sweepOne now (.header k)) w).metas k =
        if k ∈ keys then w.live now k else w.metas k := by
  induction keys generalizing w with
  | nil => exact ⟨rfl, fun _ => rfl⟩
  | cons key keys ih =>
    obtain ⟨hrows, hmetas⟩ := ih (w.sweepOne now (.header key))
    have hone (k : κ) : (w.sweepOne now (.header key)).metas k =
        if k = key then w.live now k else w.metas k := by
      unfold sweepOne judge delete live withMeta
      cases hm : w.metas key with
      | none => by_cases hk : k = key <;> simp [hk, hm]
      | some m =>
        by_cases hk : k = key <;> cases hexp : m.isExpired now <;>
          simp [hk, hm, hexp, Option.filter_some]
    refine ⟨hrows.trans ?_, fun k => ?_⟩
    · unfold sweepOne
      split
      · rfl
      · rfl
    · rw [foldl_cons, hmetas, live, hone, live]
      by_cases hk : k = key <;> by_cases hmem : k ∈ keys <;> simp [hk, hmem, Option.filter_filter]

theorem sweep_rows (w : RowWorld κ φ α) (now : ℕ) (rows : List (κ × ℕ × φ)) :
    (rows.foldl (fun w r => w.sweepOne now (.row r.1 r.2.1 r.2.2)) w).metas = w.metas ∧ ∀ k v f,
      (rows.foldl (fun w r => w.sweepOne now (.row r.1 r.2.1 r.2.2)) w).rows k v f =
        if (k, v, f) ∈ rows ∧ (w.live now k).bind KeyMeta.version ≠ some v then none
        else w.rows k v f := by
  induction rows generalizing w with
  | nil => exact ⟨rfl, fun _ _ _ => by simp⟩
  | cons row rows ih =>
    obtain ⟨key, version, field⟩ := row
    obtain ⟨hmetas, hrows⟩ := ih (w.sweepOne now (.row key version field))
    have hone : (w.sweepOne now (.row key version field)).metas = w.metas := by
      unfold sweepOne
      split
      · rfl
      · rfl
    refine ⟨hmetas.trans hone, fun k v f => ?_⟩
    rw [foldl_cons, hrows, live, hone, ← live]
    unfold sweepOne judge delete withRow
    by_cases hhere : k = key ∧ v = version ∧ f = field
    · obtain ⟨rfl, rfl, rfl⟩ := hhere
      by_cases hjudge : (w.live now k).bind KeyMeta.version = some v <;> simp [hjudge]
    · have hne : (k, v, f) ≠ (key, version, field) := fun h => hhere (by simpa using h)
      by_cases hjudge : (w.live now key).bind KeyMeta.version = some version <;>
        simp [hjudge, hhere, hne]

theorem foldl_sweepOne {β : Type} {ts : List β} {target : β → GcTarget κ φ}
    (h : ∀ t ∈ ts, (target t).judge w now = false) :
    ts.foldl (fun w t => w.sweepOne now (target t)) w = w := by
  induction ts with
  | nil => rfl
  | cons t ts ih =>
    rw [foldl_cons, sweepOne, h t mem_cons_self]
    exact ih fun t ht => h t (mem_cons_of_mem _ ht)

namespace Visits

variable (h : w.Visits keys rows)
include h

theorem metas_sweep (k : κ) : (w.sweep now keys rows).metas k = w.live now k := by
  rw [sweep, (sweep_rows _ now rows).1, (sweep_headers w now keys).2]
  split
  · rfl
  · next hk =>
    have hnone : w.metas k = none := by simpa using mt (h.keys k).mpr hk
    rw [live, hnone]
    rfl

theorem live_sweep (k : κ) : (w.sweep now keys rows).live now k = w.live now k := by
  rw [live, h.metas_sweep, live, Option.filter_filter]
  simp

/-- A row is kept exactly if its key is live and its metadata decodes to the row's version. -/
theorem rows_sweep (now : ℕ) (k : κ) (v : ℕ) (f : φ) : (w.sweep now keys rows).rows k v f =
    if (w.live now k).bind KeyMeta.version = some v then w.rows k v f else none := by
  obtain ⟨hrows, hmetas⟩ := sweep_headers w now keys
  have hlive : (keys.foldl (fun w k => w.sweepOne now (.header k)) w).live now k =
      w.live now k := by
    rw [live, hmetas]
    split
    · rw [live, Option.filter_filter]
      simp
    · rfl
  rw [sweep, (sweep_rows _ now rows).2, hlive, hrows]
  cases hrow : w.rows k v f with
  | none => simp
  | some r =>
    have hmem : (k, v, f) ∈ rows := (h.rows k v f).mpr (by rw [hrow]; rfl)
    by_cases hversion : (w.live now k).bind KeyMeta.version = some v <;> simp [hversion, hmem]

theorem version_of_row {k : κ} {v : ℕ} {f : φ} (hrow : (w.sweep now keys rows).rows k v f ≠ none) :
    w.rows k v f ≠ none ∧ (w.live now k).bind KeyMeta.version = some v := by
  rw [h.rows_sweep] at hrow
  split at hrow
  · next hversion => exact ⟨hrow, hversion⟩
  · exact absurd rfl hrow

end Visits

theorem fresh_of_visits (hvisits : w.Visits keys rows) (k : κ) (m : KeyMeta α)
    (hm : (w.sweep now keys rows).metas k = some m) : m.isExpired now = false := by
  rw [hvisits.metas_sweep] at hm
  simpa using (filter_eq_some_iff.mp hm).2

theorem sweep_again (hvisits : w.Visits keys rows) {keys' : List κ} {rows' : List (κ × ℕ × φ)}
    (hagain : (w.sweep now keys rows).Visits keys' rows') :
    (w.sweep now keys rows).sweep now keys' rows' = w.sweep now keys rows := by
  have hkeys : keys'.foldl (fun w k => w.sweepOne now (.header k)) (w.sweep now keys rows) =
      w.sweep now keys rows := foldl_sweepOne fun k _ => by
    rw [judge]
    cases hm : (w.sweep now keys rows).metas k with
    | none => rfl
    | some m => exact fresh_of_visits hvisits k m hm
  rw [sweep, hkeys]
  refine foldl_sweepOne fun r hr => ?_
  have hthere := isSome_iff_ne_none.mp ((hagain.rows r.1 r.2.1 r.2.2).mp hr)
  rw [judge, hvisits.live_sweep, (hvisits.version_of_row hthere).2]
  exact bne_self_eq_false _

/-- **A sweep leaves no expired key, and no row but those of a live key's current version**, and
another then deletes nothing, exactly if no plain value decodes to the version of a row its key
has. -/
theorem sweep_complete (hvisits : w.Visits keys rows) :
    ((∀ k m, (w.sweep now keys rows).metas k = some m → m.isExpired now = false) ∧
      (∀ k v f, (w.sweep now keys rows).rows k v f ≠ none →
        ∃ m, (w.sweep now keys rows).live now k = some m ∧ m.current = some v) ∧
      ∀ keys' rows', (w.sweep now keys rows).Visits keys' rows' →
        (w.sweep now keys rows).sweep now keys' rows' = w.sweep now keys rows) ↔
    ∀ k m v f, w.live now k = some m → m.rowed = false →
        m.version = some v → w.rows k v f = none := by
  constructor
  · rintro ⟨-, howned, -⟩ k m v f hm hrowed hv
    -- A row under the version that a plain value decodes to is kept, and nothing owns it.
    by_contra hrow
    have hversion : (w.live now k).bind KeyMeta.version = some v := by rw [hm, bind_some, hv]
    have hkept := hvisits.rows_sweep now k v f
    rw [if_pos hversion] at hkept
    obtain ⟨m', hm', hcurrent⟩ := howned k v f (hkept ▸ hrow)
    rw [hvisits.live_sweep, hm] at hm'
    obtain rfl := some.inj hm'
    rw [current, hrowed] at hcurrent
    cases hcurrent
  · intro hplain
    refine ⟨fresh_of_visits hvisits, fun k v f hrow => ?_, fun _ _ => sweep_again hvisits⟩
    obtain ⟨hthere, hversion⟩ := hvisits.version_of_row hrow
    obtain ⟨m, hm, hv⟩ := bind_eq_some_iff.mp hversion
    refine ⟨m, (hvisits.live_sweep k).trans hm, ?_⟩
    rw [current, if_pos, hv]
    by_contra hrowed
    exact hthere (hplain k m v f hm ((Bool.not_eq_true _).mp hrowed) hv)

/-! ## A string in a collection's place -/

/-- A hash's field is set; then a plain string, whose metadata decodes to version `1`. -/
def hashThenString : RowWorld Unit Unit Unit where
  metas _ := none
  rows _ _ _ := none
  last := 0
  progs c := if c = 0 then
      .mint () fun v => .setRow () v () (some ()) (.setMeta () (some ⟨0, some v, true, ()⟩) .done)
    else .setMeta () (some ⟨0, some 1, false, ()⟩) .done
  own _ _ := []

/-- The store once the first `n` steps are done, the last of them the string's. -/
def hashThenStringAt (n : ℕ) : Option (RowWorld Unit Unit Unit) :=
  ([0, 0, 0, 1].take n).foldlM (fun w c => w.run 0 (fun _ => true) c) hashThenString

theorem sweep_complete_hash : ∃ w, hashThenStringAt 3 = some w ∧ w.Visits [()] [((), 1, ())] ∧
    ∃ m, (w.sweep 0 [()] [((), 1, ())]).live 0 () = some m ∧ m.current = some 1 := by
  obtain ⟨w, hw⟩ : ∃ w, hashThenStringAt 3 = some w := ⟨_, rfl⟩
  have hvisits : w.Visits [()] [((), 1, ())] := by
    obtain rfl := some.inj hw
    refine ⟨fun k => iff_of_true (mem_singleton.mpr rfl) rfl, fun k v f => ?_⟩
    show _ ↔ (if () = () ∧ v = 1 ∧ () = () then some () else none).isSome = true
    by_cases hv : v = 1 <;> simp [hv]
  have hplain : ∀ k m v f, w.live 0 k = some m → m.rowed = false → m.version = some v →
      w.rows k v f = none := by
    obtain rfl := some.inj hw
    intro k m v f hm hrowed
    cases hm
    cases hrowed
  refine ⟨w, hw, hvisits, ((sweep_complete hvisits).mpr hplain).2.1 () 1 () ?_⟩
  obtain rfl := some.inj hw
  exact nofun

/-- **The row of the hash survives**: the key is a string now, of twenty bytes that start with the
hash's version. -/
theorem orphan_survives : ∃ w, hashThenStringAt 4 = some w ∧
    complexVersion ([16] ++ List.replicate 23 0 ++ [1] ++ List.replicate 12 0) = some 1 ∧
    (w.sweep 0 [()] [((), 1, ())]).rows () 1 () = some () ∧
    ((w.sweep 0 [()] [((), 1, ())]).live 0 ()).map KeyMeta.current = some none :=
  ⟨_, rfl, by decide, rfl, rfl⟩

end RowWorld

end

end Flint
