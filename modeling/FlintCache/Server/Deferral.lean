import Mathlib

/-!
# Server/Deferral — publishes held for the writes around them

A `PUBLISH` inside a transaction or a script is held until the writes around it are committed.
Scopes nest (`Deferral`): the outermost delivers what is held when it is committed, an inner one
leaves its publishes to it, and a scope that is dropped takes its own with it.  A script's own scope
goes out before `execute` has committed its writes.
-/

namespace Flint

open List

inductive PubAct (ω μ : Type)
  | write (w : ω)
  | publish (m : μ)
  deriving DecidableEq, Repr

inductive PubEnd
  | normal
  | failed
  | abandoned
  deriving DecidableEq, Repr

/-- An attempt to run a script: what its accepted calls do, and how it ends. -/
structure PubAttempt (ω μ : Type) where
  acts : List (PubAct ω μ)
  ends : PubEnd

inductive PubQueued (ω μ : Type)
  | plain (act : PubAct ω μ)
  | eval (script : PubAttempt ω μ)

/-- What a client asks for.  A script abandoned without the lock over every writer (`every`) is run
again with it; `ok` is whether the commit goes through. -/
inductive PubUnit (ω μ : Type)
  | plain (act : PubAct ω μ)
  | eval (every : Bool) (first again : PubAttempt ω μ) (ok : Bool)
  | exec (queued : List (PubQueued ω μ)) (ok : Bool)

inductive PubEvent (ω μ : Type)
  | committed (ws : List ω)
  | heard (m : μ)
  deriving DecidableEq, Repr

/-- A connection's thread: the publishes held and the scopes open, the writes of the buffer in use,
and what has been seen. -/
structure PubThread (ω μ : Type) where
  held : List μ
  depth : ℕ
  buffer : List ω
  seen : List (PubEvent ω μ)
  deriving DecidableEq, Repr

variable {ω μ : Type}

namespace PubThread

/-! ## The thread -/

def begin (t : PubThread ω μ) : PubThread ω μ × ℕ :=
  ({ t with depth := t.depth + 1 }, t.held.length)

/-- A scope is committed: deliver, or leave the publishes to the scope outside. -/
def commitScope (t : PubThread ω μ) : PubThread ω μ :=
  if t.depth - 1 = 0 then
    { t with depth := t.depth - 1, held := [], seen := t.seen ++ t.held.map .heard }
  else { t with depth := t.depth - 1 }

def dropScope (t : PubThread ω μ) (mark : ℕ) : PubThread ω μ :=
  { t with held := t.held.take mark, depth := t.depth - 1 }

def publish (t : PubThread ω μ) (m : μ) : PubThread ω μ :=
  if t.depth = 0 then { t with seen := t.seen ++ [.heard m] } else { t with held := t.held ++ [m] }

def act (t : PubThread ω μ) : PubAct ω μ → PubThread ω μ
  | .write w => { t with buffer := t.buffer ++ [w] }
  | .publish m => t.publish m

/-- `commit_watched`, and whether it went through; an empty buffer has nothing to commit. -/
def commitBuffer (t : PubThread ω μ) (ok : Bool) : PubThread ω μ × Bool :=
  if t.buffer.isEmpty then (t, true)
  else if ok then ({ t with buffer := [], seen := t.seen ++ [.committed t.buffer] }, true)
  else ({ t with buffer := [] }, false)

/-- `cmd_eval`: the calls go to a buffer of the script's own, which reaches the caller's when the
script ends normally. -/
def cmdEval (t : PubThread ω μ) (script : PubAttempt ω μ) : PubThread ω μ :=
  let scope := t.begin
  let run := script.acts.foldl act { scope.1 with buffer := [] }
  match script.ends with
  | .normal => { run with buffer := t.buffer ++ run.buffer }.commitScope
  | _ => { run with buffer := t.buffer }.dropScope scope.2

def execute (t : PubThread ω μ) (every : Bool) (first again : PubAttempt ω μ) (ok : Bool) :
    PubThread ω μ :=
  let t := t.cmdEval first
  let t := if first.ends = .abandoned ∧ every = false
      then { t with buffer := [] }.cmdEval again else t
  (t.commitBuffer ok).1

def queued (t : PubThread ω μ) : PubQueued ω μ → PubThread ω μ
  | .plain a => t.act a
  | .eval script => t.cmdEval script

def execTransaction (t : PubThread ω μ) (commands : List (PubQueued ω μ)) (ok : Bool) :
    PubThread ω μ :=
  let scope := t.begin
  let out := (commands.foldl queued scope.1).commitBuffer ok
  if out.2 then out.1.commitScope else out.1.dropScope scope.2

def plain (t : PubThread ω μ) : PubAct ω μ → PubThread ω μ
  | .write w => { t with seen := t.seen ++ [.committed [w]] }
  | .publish m => t.publish m

def run (t : PubThread ω μ) : PubUnit ω μ → PubThread ω μ
  | .plain a => t.plain a
  | .eval every first again ok => t.execute every first again ok
  | .exec commands ok => t.execTransaction commands ok

end PubThread

/-! ## What should be seen -/

def writesOf (acts : List (PubAct ω μ)) : List ω :=
  acts.filterMap fun
    | .write w => some w
    | .publish _ => none

def publishesOf (acts : List (PubAct ω μ)) : List μ :=
  acts.filterMap fun
    | .write _ => none
    | .publish m => some m

def PubAttempt.kept (script : PubAttempt ω μ) : List (PubAct ω μ) :=
  match script.ends with
  | .normal => script.acts
  | _ => []

def PubQueued.kept : PubQueued ω μ → List (PubAct ω μ)
  | .plain a => [a]
  | .eval script => script.kept

def lastAttempt (every : Bool) (first again : PubAttempt ω μ) : PubAttempt ω μ :=
  if first.ends = .abandoned ∧ every = false then again else first

/-- Everything around a commit: the writes, and once they are committed the messages in order. -/
def afterCommit (acts : List (PubAct ω μ)) (ok : Bool) : List (PubEvent ω μ) :=
  if (writesOf acts).isEmpty then (publishesOf acts).map .heard
  else if ok then .committed (writesOf acts) :: (publishesOf acts).map .heard
  else []

def PubUnit.shows : PubUnit ω μ → List (PubEvent ω μ)
  | .plain a => afterCommit [a] true
  | .eval every first again ok => afterCommit (lastAttempt every first again).kept ok
  | .exec commands ok => afterCommit (commands.flatMap PubQueued.kept) ok

def PubUnit.apart : PubUnit ω μ → Prop
  | .eval every first again _ =>
    writesOf (lastAttempt every first again).kept = [] ∨
      publishesOf (lastAttempt every first again).kept = []
  | _ => True

/-! ## What is seen -/

namespace PubThread

variable {t : PubThread ω μ}

structure Idle (t : PubThread ω μ) : Prop where
  held : t.held = []
  depth : t.depth = 0
  buffer : t.buffer = []

theorem foldl_act (acts : List (PubAct ω μ)) (hdepth : t.depth ≠ 0) : acts.foldl act t =
      { t with held := t.held ++ publishesOf acts, buffer := t.buffer ++ writesOf acts } := by
  induction acts generalizing t with
  | nil => simp [publishesOf, writesOf]
  | cons a acts ih =>
    cases a with
    | write w =>
      refine (ih (by exact hdepth)).trans ?_
      simp [act, publishesOf, writesOf]
    | publish m =>
      have hact : t.act (.publish m) = { t with held := t.held ++ [m] } := if_neg hdepth
      rw [foldl_cons, hact]
      refine (ih (by exact hdepth)).trans ?_
      simp [publishesOf, writesOf]

theorem cmdEval_of_depth (script : PubAttempt ω μ) (hdepth : t.depth ≠ 0) : t.cmdEval script =
      { t with
        held := t.held ++ publishesOf script.kept,
            buffer := t.buffer ++ writesOf script.kept } := by
  unfold cmdEval PubAttempt.kept
  simp only [begin]
  rw [foldl_act script.acts (Nat.succ_ne_zero _)]
  cases script.ends with
  | normal => simp [commitScope, hdepth]
  | _ => simp [dropScope, publishesOf, writesOf]

theorem cmdEval_of_idle (script : PubAttempt ω μ) (h : t.Idle) : t.cmdEval script = { t with
        seen := t.seen ++ (publishesOf script.kept).map .heard,
            buffer := writesOf script.kept } := by
  obtain ⟨held, depth, buffer, seen⟩ := t
  obtain ⟨rfl, rfl, rfl⟩ := h
  unfold cmdEval PubAttempt.kept
  simp only [begin]
  rw [foldl_act script.acts (Nat.succ_ne_zero _)]
  cases script.ends with
  | normal => simp [commitScope]
  | _ => simp [dropScope, publishesOf, writesOf]

theorem foldl_queued (commands : List (PubQueued ω μ)) (hdepth : t.depth ≠ 0) :
    commands.foldl queued t = { t with
        held := t.held ++ publishesOf (commands.flatMap PubQueued.kept)
        buffer := t.buffer ++ writesOf (commands.flatMap PubQueued.kept) } := by
  induction commands generalizing t with
  | nil => simp [publishesOf, writesOf]
  | cons c commands ih =>
    have hone : t.queued c =
        { t with held := t.held ++ publishesOf c.kept, buffer := t.buffer ++ writesOf c.kept } := by
      cases c with
      | plain a => exact foldl_act [a] hdepth
      | eval script => exact cmdEval_of_depth script hdepth
    rw [foldl_cons, hone]
    refine (ih (by exact hdepth)).trans ?_
    simp [publishesOf, writesOf]

theorem execTransaction_of_idle (commands : List (PubQueued ω μ)) (ok : Bool) (h : t.Idle) :
    t.execTransaction commands ok =
      { t with seen := t.seen ++ afterCommit (commands.flatMap PubQueued.kept) ok } := by
  obtain ⟨held, depth, buffer, seen⟩ := t
  obtain ⟨rfl, rfl, rfl⟩ := h
  have hqueued := foldl_queued
      (t := (⟨[], 1, [], seen⟩ : PubThread ω μ)) commands (Nat.succ_ne_zero 0)
  unfold execTransaction afterCommit
  simp only [begin, Nat.zero_add, hqueued]
  generalize commands.flatMap PubQueued.kept = acts
  unfold commitBuffer
  cases hwrites : writesOf acts with
  | nil => simp [commitScope]
  | cons w ws =>
    cases ok with
    | true => simp [commitScope]
    | false => simp [dropScope]

def overtaken (acts : List (PubAct ω μ)) (ok : Bool) : List (PubEvent ω μ) :=
  (publishesOf acts).map .heard ++
    if (writesOf acts).isEmpty then [] else if ok then [.committed (writesOf acts)] else []

theorem execute_of_idle (every : Bool) (first again : PubAttempt ω μ) (ok : Bool) (h : t.Idle) :
    t.execute every first again ok =
      { t with seen := t.seen ++ overtaken (lastAttempt every first again).kept ok } := by
  have hcommit (script : PubAttempt ω μ) :
      ((t.cmdEval script).commitBuffer ok).1 =
          { t with seen := t.seen ++ overtaken script.kept ok } := by
    rw [cmdEval_of_idle script h]
    obtain ⟨held, depth, buffer, seen⟩ := t
    obtain ⟨rfl, rfl, rfl⟩ := h
    unfold commitBuffer overtaken
    cases hwrites : writesOf script.kept with
    | nil => simp
    | cons w ws =>
      cases ok with
      | _ => simp
  unfold execute lastAttempt
  by_cases hagain : first.ends = .abandoned ∧ every = false
  · have hfirst : { t.cmdEval first with buffer := [] } = t := by
      rw [cmdEval_of_idle first h, PubAttempt.kept, hagain.1]
      obtain ⟨held, depth, buffer, seen⟩ := t
      obtain ⟨rfl, rfl, rfl⟩ := h
      simp [publishesOf]
    rw [if_pos hagain]
    simp only [if_pos hagain, hfirst]
    exact hcommit again
  · rw [if_neg hagain]
    simp only [if_neg hagain]
    exact hcommit first

theorem overtaken_eq_afterCommit_iff (acts : List (PubAct ω μ)) (ok : Bool) :
    overtaken acts ok = afterCommit acts ok ↔ writesOf acts = [] ∨ publishesOf acts = [] := by
  unfold overtaken afterCommit
  cases hwrites : writesOf acts with
  | nil => simp
  | cons w ws =>
    cases hpublishes : publishesOf acts with
    | nil => simp
    | cons m ms =>
      cases ok with
      | _ => simp

def added : PubUnit ω μ → List (PubEvent ω μ)
  | .plain a => afterCommit [a] true
  | .eval every first again ok => overtaken (lastAttempt every first again).kept ok
  | .exec commands ok => afterCommit (commands.flatMap PubQueued.kept) ok

theorem run_of_idle (u : PubUnit ω μ) (h : t.Idle) :
    t.run u = { t with seen := t.seen ++ added u } := by
  cases u with
  | plain a =>
    cases a with
    | write w => rfl
    | publish m => exact if_pos h.depth
  | eval every first again ok => exact execute_of_idle every first again ok h
  | exec commands ok => exact execTransaction_of_idle commands ok h

theorem Idle.run (h : t.Idle) (u : PubUnit ω μ) : (t.run u).Idle := by
  rw [run_of_idle u h]
  exact ⟨h.held, h.depth, h.buffer⟩

theorem Idle.foldl (h : t.Idle) (us : List (PubUnit ω μ)) : (us.foldl PubThread.run t).Idle := by
  induction us generalizing t with
  | nil => exact h
  | cons u us ih => exact ih (h.run u)

end PubThread

/-- **Messages are heard after the commit**: a unit shows its writes and then its messages, each
once and in order, and nothing if the commit fails or a script is discarded, exactly when it is not
a script on its own that both writes and publishes. -/
theorem heard_after_commit (us : List (PubUnit ω μ)) (u : PubUnit ω μ) :
    ((us ++ [u]).foldl PubThread.run ⟨[], 0, [], []⟩).seen =
        (us.foldl PubThread.run ⟨[], 0, [], []⟩).seen ++ u.shows ↔ u.apart := by
  have hidle : (us.foldl PubThread.run (⟨[], 0, [], []⟩ : PubThread ω μ)).Idle :=
    PubThread.Idle.foldl ⟨rfl, rfl, rfl⟩ us
  rw [foldl_append, foldl_cons, foldl_nil, PubThread.run_of_idle u hidle]
  refine append_right_inj _ |>.trans ?_
  cases u with
  | eval every first again ok => exact PubThread.overtaken_eq_afterCommit_iff _ ok
  | _ => exact iff_of_true rfl trivial

/-- **A message ahead of its write**: a script that writes and publishes is heard before the commit,
and also when the commit fails. -/
theorem heard_before_commit :
    ((⟨[], 0, [], []⟩ : PubThread ℕ ℕ).run
        (.eval false ⟨[.write 1, .publish 2], .normal⟩ ⟨[], .failed⟩ true)).seen =
        [.heard 2, .committed [1]] ∧
      ((⟨[], 0, [], []⟩ : PubThread ℕ ℕ).run
        (.eval false ⟨[.write 1, .publish 2], .normal⟩ ⟨[], .failed⟩ false)).seen = [.heard 2] := by
  decide

end Flint
