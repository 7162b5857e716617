import FlintCache.Resp.Commands

/-!
# Proxy/Forward — one client command, sent until it is answered

A command that a node refuses to serve there or yet — `MOVED`, `TRYAGAIN`, `LOADING`, `READONLY` —
is sent again; so is one whose connection died or whose reply is late, until the retry budget is
over.  A blocking read waits at the proxy, and a write under a text index's prefix goes to its
co-processor.  What the network, the nodes and the clock do is a list of rounds, one for each turn
of the loop.
-/

namespace Flint

open List

/-! ## Rounds -/

/-- What becomes of a frame.  `executed` is whether the command took effect at the node. -/
inductive Outcome
  | unsent
  /-- Sent; then the connection died, or the time for the reply ran out. -/
  | lost (executed : Bool)
  | answered (executed : Bool) (reply : Value)

/-- The replies by which a node turns a command away for now. -/
inductive Refusal
  | moved
  | tryAgain
  | loading
  | readOnly
  deriving DecidableEq, Repr

def refusalOf : Value → Option Refusal
  | .error e =>
    if startsWith e "MOVED " then some .moved
    else if startsWith e "TRYAGAIN" then some .tryAgain
    else if startsWith e "LOADING" then some .loading
    else if startsWith e "READONLY" then some .readOnly
    else none
  | _ => none

/-- One turn of the loop: which nodes it finds, and what a frame sent there comes to. -/
structure Round where
  late : Bool
  /-- A replica of the pair that owns the slot, where one is known. -/
  replica : Option String
  master : Option String
  outcome : String → Outcome

def Round.target (r : Round) (keyed useReplica : Bool) : Option String :=
  if keyed && useReplica then r.replica.or r.master else r.master

/-! ## The loop -/

inductive Next
  | answer (v : Value)
  | again (useReplica : Bool)

def decideNext (useReplica late : Bool) : Outcome → Next
  | .answered _ v =>
    match refusalOf v with
    | some .moved =>
      if late then .answer (.error "ERR routing did not settle (moved chase)")
      else .again useReplica
    | some .tryAgain => if late then .answer v else .again false
    | some .loading => if late then .answer v else .again useReplica
    | some .readOnly => if late then .answer v else .again useReplica
    | none => .answer v
  | .lost _ =>
    if late then .answer (.error "ERR backend unavailable (failover did not settle)")
    else .again false
  | .unsent =>
    if late then .answer (.error "ERR backend unavailable (failover did not settle)")
    else .again false

/-- How far a command got: the attempts made, the answer if there is one yet, and the rounds
left. -/
structure Forwarded where
  sent : List Outcome
  answer : Option Value
  rest : List Round

def Forwarded.after (f : Forwarded) (sent : List Outcome) : Forwarded :=
  { f with sent := sent ++ f.sent }

def forward (keyed : Bool) : Bool → List Round → Forwarded
  | _, [] => ⟨[], none, []⟩
  | useReplica, r :: rounds =>
    match r.target keyed useReplica with
    | none =>
      if r.late then ⟨[], some (.error "ERR no reachable master for this slot"), rounds⟩
      else forward keyed useReplica rounds
    | some addr =>
      match decideNext useReplica r.late (r.outcome addr) with
      | .answer v => ⟨[r.outcome addr], some v, rounds⟩
      | .again useReplica => (forward keyed useReplica rounds).after [r.outcome addr]

/-- A command staged before: anything but a plain reply hands it to the loop. -/
def forwardCollect (staged : Outcome) (rounds : List Round) : Forwarded :=
  match staged with
  | .answered _ v =>
    match refusalOf v with
    | some _ => (forward true false rounds).after [staged]
    | none => ⟨[staged], some v, rounds⟩
  | _ => (forward true false rounds).after [staged]

/-! ## Waiting at the proxy -/

def popAttempts (args : List String) : List (List String) :=
  let name := (args.headD "").toUpper
  let moves := name = "BLMOVE" ∨ name = "BRPOPLPUSH"
  let mpop := name = "BLMPOP" ∨ name = "BZMPOP"
  let mpopKeys := if mpop then
      (args[2]?.bind (parseUnsigned 64)).filter fun n => 1 < n && n < args.length - 3
    else none
  match mpopKeys with
  | some n => ((args.drop 3).take n).map fun k => args.take 2 ++ ["1", k] ++ args.drop (3 + n)
  | none =>
    if moves ∨ mpop ∨ args.length ≤ 3 then [args]
    else ((args.drop 1).dropLast).map fun k => args.take 1 ++ [k] ++ args.drop (args.length - 1)

def popPass : List (List String) → List Round → Forwarded
  | [], rounds => ⟨[], some (.array none), rounds⟩
  | _ :: attempts, rounds =>
    let f := forward true false rounds
    match f.answer with
    | none => f
    | some v => if v.isNothing then (popPass attempts f.rest).after f.sent else f

/-- **A blocking pop**: passes with a wait between them; a wait ends the command where its time is
up or the client has left. -/
def blockingPop (attempts : List (List String)) : List Bool → List Round → Forwarded
  | [], rounds => popPass attempts rounds
  | goOn :: waits, rounds =>
    let f := popPass attempts rounds
    match f.answer with
    | none => f
    | some v =>
      if v.isNothing then
        if goOn then (blockingPop attempts waits f.rest).after f.sent
        else { f with answer := some (.array none) }
      else f

def groupPolls : List Bool → List Round → Forwarded
  | [], rounds => ⟨[], none, rounds⟩
  | goOn :: waits, rounds =>
    if goOn then
      let f := forward true false rounds
      match f.answer with
      | none => f
      | some v => if v.isNull then (groupPolls waits f.rest).after f.sent else f
    else ⟨[], some (.array none), rounds⟩

/-- **A blocking read of a group's new entries**; `keysKnown`: its arguments tell its keys. -/
def blockingXreadgroup (keysKnown : Bool) (waits : List Bool) (rounds : List Round) : Forwarded :=
  let f := forward true false rounds
  match f.answer with
  | none => f
  | some v =>
    if v.isNull then
      if keysKnown then (groupPolls waits f.rest).after f.sent
      else { f with answer := some (.array none) }
    else f

/-! ## Handing a write to the co-processor -/

def readHexDigit (c : Char) : Option ℕ :=
  if '0' ≤ c ∧ c ≤ '9' then some (c.toNat - '0'.toNat)
  else if 'a' ≤ c ∧ c ≤ 'f' then some (c.toNat - 'a'.toNat + 10)
  else if 'A' ≤ c ∧ c ≤ 'F' then some (c.toNat - 'A'.toNat + 10)
  else none

def readHexByte (a b : Char) : Option ℕ :=
  if a = '+' then readHexDigit b
  else do
    let high ← readHexDigit a
    let low ← readHexDigit b
    some (16 * high + low)

def readHexBytes : List Char → Option (List ℕ)
  | [] => some []
  | [_] => none
  | a :: b :: rest => do
    let byte ← readHexByte a b
    let bytes ← readHexBytes rest
    some (byte :: bytes)

def indexedPrefix (e : String) : Option (List ℕ) :=
  if startsWith e "INDEXED " then
    readHexBytes ((e.toList.drop "INDEXED ".length).takeWhile (· ≠ ' '))
  else none

def Value.isIndexed : Value → Bool
  | .error e => (indexedPrefix e).isSome
  | _ => false

/-- **A call of the co-processor**: a pooled connection and a fresh one for each endpoint. -/
def coprocCall : List Outcome → Forwarded
  | [] =>
    ⟨[], some (.error "COPROCUNAVAIL no co-processor is available for this command family"), []⟩
  | .answered executed v :: _ => ⟨[.answered executed v], some v, []⟩
  | .lost executed :: attempts => (coprocCall attempts).after [.lost executed]
  | .unsent :: attempts => (coprocCall attempts).after [.unsent]

inductive SendPath
  | plain (keyed readReplica : Bool)
  | staged (first : Outcome)
  | pop (args : List String) (waits : List Bool)
  | group (keysKnown : Bool) (waits : List Bool)
  | indexed (attempts : List Outcome)

def SendPath.polls : SendPath → Bool
  | .pop _ _ => true
  | .group _ _ => true
  | _ => false

def SendPath.run (rounds : List Round) : SendPath → Forwarded
  | .plain keyed readReplica => forward keyed readReplica rounds
  | .staged first => forwardCollect first rounds
  | .pop args waits => blockingPop (popAttempts args) waits rounds
  | .group keysKnown waits => blockingXreadgroup keysKnown waits rounds
  | .indexed attempts => coprocCall attempts

/-- **One client command.**  A write that its node refuses as indexed is handed over to a
co-processor for it. -/
def sendCommand (rounds : List Round) (handOver : Option (List Outcome)) (path : SendPath) :
    Forwarded :=
  let f := path.run rounds
  match f.answer, handOver with
  | some v, some attempts => if v.isIndexed then (coprocCall attempts).after f.sent else f
  | _, _ => f

/-! ## What is sent again -/

namespace Outcome

def executed : Outcome → Bool
  | .unsent => false
  | .lost e => e
  | .answered e _ => e

def isLost : Outcome → Bool
  | .lost _ => true
  | _ => false

/-- The attempts that another may follow: unsent, lost, refused — or, of a poll, in vain. -/
def resent (polls : Bool) : Outcome → Bool
  | .unsent => true
  | .lost _ => true
  | .answered _ v => (refusalOf v).isSome || v.isIndexed || (polls && v.isNothing)

/-- **An answer tells the execution**: refused was not executed, in vain took nothing. -/
def Honest (polls : Bool) (o : Outcome) : Prop :=
  o.resent polls = true → o.isLost = false → o.executed = false

instance (polls : Bool) (o : Outcome) : Decidable (o.Honest polls) :=
  inferInstanceAs (Decidable (_ → _ → _))

end Outcome

def executions (sent : List Outcome) : ℕ := sent.countP Outcome.executed

def losses (sent : List Outcome) : ℕ := sent.countP Outcome.isLost

/-- **Every attempt but the last was one that another may follow**; the last is, or answers. -/
structure Forwarded.Retrying (polls : Bool) (f : Forwarded) : Prop where
  before : ∀ o ∈ f.sent.dropLast, o.resent polls = true
  last : ∀ v, f.answer = some v → ∀ o ∈ f.sent, o.resent polls = true ∨ ∃ e, o = .answered e v

open Outcome

section Retrying

variable {polls : Bool} {f : Forwarded} {rest : List Round} {o : Outcome} {v : Value}
  {sent : List Outcome}

namespace Forwarded.Retrying

theorem of_nil {answer : Option Value} : Forwarded.Retrying polls ⟨[], answer, rest⟩ :=
  ⟨nofun, nofun⟩

theorem of_single (h : o.resent polls = true ∨ ∃ e, o = .answered e v) :
    Forwarded.Retrying polls ⟨[o], some v, rest⟩ where
  before := nofun
  last := by
    intro w hw x hx
    cases hw
    obtain rfl := mem_singleton.mp hx
    exact h

theorem after (hf : f.Retrying polls)
    (h : ∀ o ∈ sent, o.resent polls = true) : (f.after sent).Retrying polls where
  before := by
    intro o ho
    simp only [Forwarded.after, dropLast_append] at ho
    split at ho
    · exact h o (dropLast_subset _ ho)
    · rcases mem_append.mp ho with ho | ho
      · exact h o ho
      · exact hf.before o ho
  last := by
    intro v hv o ho
    rcases mem_append.mp ho with ho | ho
    · exact .inl (h o ho)
    · exact hf.last v hv o ho

theorem all_resent (hf : f.Retrying polls)
    (hv : f.answer = some v) (h : ∀ e, (answered e v).resent polls = true) :
    ∀ o ∈ f.sent, o.resent polls = true := by
  intro o ho
  rcases hf.last v hv o ho with hr | ⟨e, rfl⟩
  · exact hr
  · exact h e

theorem next {g : Forwarded} (hf : f.Retrying true)
    (hg : g.Retrying true) (hv : f.answer = some v) (hn : v.isNothing = true) :
    (g.after f.sent).Retrying true :=
  hg.after (hf.all_resent hv fun _ => by simp [resent, hn])

theorem giveUp {v w : Value} (hf : f.Retrying true) (hv : f.answer = some v)
    (hn : v.isNothing = true) : Forwarded.Retrying true { f with answer := some w } where
  before := hf.before
  last := fun _ _ o ho => .inl (hf.all_resent hv (fun _ => by simp [resent, hn]) o ho)

end Forwarded.Retrying

end Retrying

/-! ## The loop sends again only then -/

theorem decideNext_answer {polls useReplica late : Bool}
    (h : decideNext useReplica late o = .answer v) :
    o.resent polls = true ∨ ∃ e, o = .answered e v := by
  cases o with
  | unsent | lost e => exact .inl rfl
  | answered e w =>
    cases hr : refusalOf w with
    | some r => exact .inl (by simp [resent, hr])
    | none =>
      simp only [decideNext, hr, Next.answer.injEq] at h
      exact .inr ⟨e, by rw [h]⟩

theorem decideNext_again {polls useReplica late useReplica' : Bool}
    (h : decideNext useReplica late o = .again useReplica') : o.resent polls = true := by
  cases o with
  | unsent | lost e => rfl
  | answered e w =>
    cases hr : refusalOf w with
    | some r => simp [resent, hr]
    | none => simp [decideNext, hr] at h

theorem forward_retrying (polls keyed useReplica : Bool) (rounds : List Round) :
    (forward keyed useReplica rounds).Retrying polls := by
  induction rounds generalizing useReplica with
  | nil => exact .of_nil
  | cons r rounds ih =>
    rw [forward]
    cases r.target keyed useReplica with
    | none =>
      cases r.late with
      | true => exact .of_nil
      | false => exact ih useReplica
    | some addr =>
      simp only
      cases hd : decideNext useReplica r.late (r.outcome addr) with
      | answer v => exact .of_single (decideNext_answer hd)
      | again u =>
        refine (ih u).after fun o ho => ?_
        obtain rfl := mem_singleton.mp ho
        exact decideNext_again hd

theorem forwardCollect_retrying (polls : Bool) (staged : Outcome) (rounds : List Round) :
    (forwardCollect staged rounds).Retrying polls := by
  have hagain : staged.resent polls = true →
      ((forward true false rounds).after [staged]).Retrying polls := by
    intro hs
    refine (forward_retrying polls true false rounds).after fun o ho => ?_
    obtain rfl := mem_singleton.mp ho
    exact hs
  cases staged with
  | unsent | lost e => exact hagain rfl
  | answered e v =>
    cases hr : refusalOf v with
    | some r =>
      simp only [forwardCollect, hr]
      exact hagain (by simp [resent, hr])
    | none =>
      simp only [forwardCollect, hr]
      exact .of_single (.inr ⟨e, rfl⟩)

theorem popPass_retrying (attempts : List (List String)) (rounds : List Round) :
    (popPass attempts rounds).Retrying true := by
  induction attempts generalizing rounds with
  | nil => exact .of_nil
  | cons a attempts ih =>
    have hf := forward_retrying true true false rounds
    simp only [popPass]
    split
    · exact hf
    rename_i v hv
    split
    · next hn => exact hf.next (ih _) hv hn
    · exact hf

theorem blockingPop_retrying (attempts : List (List String)) (waits : List Bool)
    (rounds : List Round) : (blockingPop attempts waits rounds).Retrying true := by
  induction waits generalizing rounds with
  | nil => exact popPass_retrying attempts rounds
  | cons goOn waits ih =>
    have hf := popPass_retrying attempts rounds
    simp only [blockingPop]
    split
    · exact hf
    rename_i v hv
    split
    · rename_i hn
      split
      · exact hf.next (ih _) hv hn
      · exact hf.giveUp hv hn
    · exact hf

theorem groupPolls_retrying (waits : List Bool) (rounds : List Round) :
    (groupPolls waits rounds).Retrying true := by
  induction waits generalizing rounds with
  | nil => exact .of_nil
  | cons goOn waits ih =>
    have hf := forward_retrying true true false rounds
    simp only [groupPolls]
    split
    · split
      · exact hf
      rename_i v hv
      split
      · next hn => exact hf.next (ih _) hv (Value.isNothing_of_isNull hn)
      · exact hf
    · exact .of_nil

theorem blockingXreadgroup_retrying (keysKnown : Bool) (waits : List Bool) (rounds : List Round) :
    (blockingXreadgroup keysKnown waits rounds).Retrying true := by
  have hf := forward_retrying true true false rounds
  simp only [blockingXreadgroup]
  split
  · exact hf
  rename_i v hv
  split
  · rename_i hn
    have hn := Value.isNothing_of_isNull hn
    split
    · exact hf.next (groupPolls_retrying waits _) hv hn
    · exact hf.giveUp hv hn
  · exact hf

theorem coprocCall_retrying (polls : Bool) (attempts : List Outcome) :
    (coprocCall attempts).Retrying polls := by
  induction attempts with
  | nil => exact .of_nil
  | cons o attempts ih =>
    cases o with
    | answered e v => exact .of_single (.inr ⟨e, rfl⟩)
    | _ =>
      refine ih.after fun o ho => ?_
      obtain rfl := mem_singleton.mp ho
      rfl

theorem SendPath.run_retrying (path : SendPath) (rounds : List Round) :
    (path.run rounds).Retrying path.polls := by
  cases path with
  | plain keyed readReplica => exact forward_retrying _ _ _ _
  | staged first => exact forwardCollect_retrying _ _ _
  | pop args waits => exact blockingPop_retrying _ _ _
  | group keysKnown waits => exact blockingXreadgroup_retrying _ _ _
  | indexed attempts => exact coprocCall_retrying _ _

theorem sendCommand_retrying (rounds : List Round) (handOver : Option (List Outcome))
    (path : SendPath) : (sendCommand rounds handOver path).Retrying path.polls := by
  have hf := path.run_retrying rounds
  simp only [sendCommand]
  split
  · rename_i v attempts hv
    cases hi : v.isIndexed with
    | false => exact hf
    | true =>
      exact (coprocCall_retrying _ attempts).after
        (hf.all_resent hv fun _ => by simp [resent, hi])
  · exact hf

/-! ## Counting executions -/

theorem executions_le_of_resent {polls : Bool}
    (h : ∀ o ∈ sent.dropLast, o.resent polls = true) (hh : ∀ o ∈ sent, o.Honest polls) :
    executions sent ≤ losses sent + 1 := by
  rcases eq_nil_or_concat sent with rfl | ⟨front, o, rfl⟩
  · exact Nat.zero_le _
  rw [concat_eq_append] at h hh ⊢
  rw [dropLast_concat] at h
  have hfront : front.countP executed ≤ front.countP isLost := by
    refine countP_mono_left fun x hx hex => ?_
    cases hl : x.isLost with
    | true => rfl
    | false =>
      have := hh x (mem_append_left _ hx) (h x hx) hl
      rw [this] at hex
      exact absurd hex Bool.false_ne_true
  have hlast : [o].countP executed ≤ 1 := countP_le_length
  simp only [executions, losses, countP_append]
  omega

/-- **A command is executed at most once more than its attempts were lost**, and is sent again only
after an attempt that was unsent, lost, refused or in vain. -/
theorem executions_le_losses (rounds : List Round) (handOver : Option (List Outcome))
    (path : SendPath) (h : ∀ o ∈ (sendCommand rounds handOver path).sent, o.Honest path.polls) :
    (∀ o ∈ (sendCommand rounds handOver path).sent.dropLast, o.resent path.polls = true) ∧
      executions (sendCommand rounds handOver path).sent ≤
        losses (sendCommand rounds handOver path).sent + 1 :=
  ⟨(sendCommand_retrying rounds handOver path).before,
    executions_le_of_resent (sendCommand_retrying rounds handOver path).before h⟩

/-- A failover: the old master counts and dies, its replica is read-only, then the master. -/
def failoverRounds : List Round :=
  [⟨false, none, some "a", fun _ => .lost true⟩,
    ⟨false, none, some "b",
      fun _ => .answered false (.error "READONLY You can't write against a read only replica.")⟩,
    ⟨false, none, some "b", fun _ => .answered true (.integer 2)⟩]

theorem executions_le_losses_failover :
    (∀ o ∈ (sendCommand failoverRounds none (.plain true false)).sent, o.Honest false) ∧
      executions (sendCommand failoverRounds none (.plain true false)).sent ≤
        losses (sendCommand failoverRounds none (.plain true false)).sent + 1 := by
  have h : ∀ o ∈ (sendCommand failoverRounds none (.plain true false)).sent, o.Honest false := by
    decide +kernel
  exact ⟨h, (executions_le_losses failoverRounds none (.plain true false) h).2⟩

/-- A counter that is lost after its node counted is sent again, and counted twice. -/
theorem lost_counter_counts_twice :
    (∀ o ∈ (sendCommand failoverRounds none (.plain true false)).sent, o.Honest false) ∧
      executions (sendCommand failoverRounds none (.plain true false)).sent = 2 := by
  decide +kernel

end Flint
