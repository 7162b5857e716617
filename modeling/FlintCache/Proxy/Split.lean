import FlintCache.Lib.Lists
import FlintCache.Proxy.Forward
import FlintCache.Server.SlotGate

/-!
# Proxy/Split — one command over the keys of several pairs

The keys of a `DEL`, `UNLINK`, `EXISTS` or `TOUCH` are grouped by the masters the proxy knows, and
the counts added up; an `MGET` is sent once for each slot, and its values are put back by position.
A node's gate looks at the slot of a command's first key alone, so a count is right exactly where
keys of different owners are never in one group (`split_exact`).
-/

namespace Flint

open List

/-! ## Pairs and what they hold -/

/-- Which pair owns a slot, which one a node is of, and a pair's master. -/
structure Owners where
  dispatcher : Dispatcher
  owner : ℕ → String
  pairOf : String → String
  master : String → String
  pairOf_master : ∀ slot, pairOf (master (owner slot)) = owner slot

namespace Owners

variable (F : Owners)

def slotOf (key : String) : ℕ := F.dispatcher.slotOf key

def ownerOf (key : String) : String := F.owner (F.slotOf key)

theorem ownerOf_of_slotOf {F : Owners} {key key' : String} (h : F.slotOf key = F.slotOf key') :
    F.ownerOf key = F.ownerOf key' := by
  rw [ownerOf, ownerOf, h]

/-- An error, or what the owner of the first key replies. -/
def Answers (reply : String → List String → Value) (keys : List String) (v : Value) : Prop :=
  v.isError = true ∨ ∃ first ∈ keys.head?, v = reply (F.ownerOf first) keys

end Owners

/-- How many of some keys a pair handles, which adds up over parts that have no key in common, and
the values it has. -/
structure PairData where
  handled : String → List String → ℕ
  handled_parts : ∀ p keys (c : String → Bool),
    handled p keys = handled p (keys.filter c) + handled p (keys.filter fun k => !c k)
  value : String → String → Value

namespace PairData

variable (D : PairData) (F : Owners)

def count (p : String) (keys : List String) : Value := .integer (D.handled p keys)

def mget (p : String) (keys : List String) : Value := .array (some (keys.map (D.value p)))

/-- The sum over the keys' owners of what each handles of its own keys. -/
def exactCount (keys : List String) : ℤ :=
  ∑ p ∈ (keys.map F.ownerOf).toFinset, (D.handled p (keys.filter fun k => F.ownerOf k = p) : ℤ)

/-- The value is that of the key at its owner. -/
def ValueAt (keys : List String) (i : ℕ) (v : Value) : Prop :=
  ∃ k ∈ keys[i]?, v = D.value (F.ownerOf k) k

/-- The keys that each pair has, and no two interact. -/
def having (has : String → String → Bool) : PairData where
  handled p keys := keys.countP (has p)
  handled_parts p keys c := countP_eq_countP_filter_add keys (has p) c
  value p k := .bulk (if has p k then some k else none)

end PairData

def splitNames : List String := ["DEL", "UNLINK", "EXISTS", "TOUCH", "MGET"]

variable {F : Owners} {reply : String → List String → Value}

/-- What becomes of the commands sent.  A node replies to what its gate accepts, and to the rest
with an error. -/
structure Sends (F : Owners) (reply : String → List String → Value) where
  name : String
  splits : name ∈ splitNames
  readReplica : Bool
  staged : List String → Option (String × Outcome)
  rounds : List String → List Round
  /-- A node, as it was when it took the command with these keys. -/
  node : List String → String → SlotNode
  answers : ∀ keys addr e v, ((∃ r ∈ rounds keys, r.outcome addr = .answered e v) ∨
      staged keys = some (addr, .answered e v)) → v.isError = true ∨ keys ≠ [] ∧
    (node keys addr).accepts F.dispatcher [name :: keys] = true ∧ v = reply (F.pairOf addr) keys
  /-- Only an old view names a master of another pair: the slot has been handed over since, or is
  being brought in, and the master has the record.  A replica has none. -/
  records : ∀ keys addr, ((∃ r ∈ rounds keys, r.master = some addr) ∨
      ∃ o, staged keys = some (addr, o)) →
    ∀ first ∈ keys.head?, F.pairOf addr ≠ F.ownerOf first →
      ∃ phase, phase ≠ .migrating ∧ (node keys addr).phase (F.slotOf first) = some phase

def Sends.whole (S : Sends F reply) (keys : List String) : Option Value :=
  (forward true S.readReplica (S.rounds keys)).answer

def Sends.part (S : Sends F reply) (keys : List String) : Option Value :=
  match if S.readReplica then none else S.staged keys with
  | some (_, o) => (forwardCollect o (S.rounds keys)).answer
  | none => S.whole keys

/-! ## The source's functions -/

def groupByOwner (F : Owners) (route : ℕ → Option String) (keys : List String) :
    List (Option String × List String) :=
  groupBy (fun k => route (F.slotOf k)) keys

/-- The keys with their positions, so that a key named twice is asked for twice. -/
def groupBySlot (F : Owners) (keys : List String) : List (ℕ × List (String × ℕ)) :=
  groupBy (fun p => F.slotOf p.1) keys.zipIdx

def sumReplies : ℤ → List (Option Value) → Option Value
  | total, [] => some (.integer total)
  | total, some (.integer n) :: replies => sumReplies (total + n) replies
  | _, other :: _ => other

def splitByOwner (S : Sends F reply) (route : ℕ → Option String) (keys : List String) :
    Option Value :=
  let groups := groupByOwner F route keys
  if groups.length ≤ 1 then S.whole keys else sumReplies 0 (groups.map fun g => S.whole g.2)

def place (positions : List ℕ) (items : List Value) (out : List (Option Value)) :
    List (Option Value) :=
  (positions.zip items).foldl (fun out p => out.set p.1 (some p.2)) out

def assembleMget (debug : Value → String) :
    List (List ℕ × Option Value) → List (Option Value) → Option Value
  | (positions, reply) :: replies, out =>
    let misshapen (v : Value) : Value :=
      .error s!"ERR split MGET: a backend answered {debug v} for {positions.length} keys"
    match reply with
    | some (.array (some items)) =>
      if items.length = positions.length then assembleMget debug replies (place positions items out)
      else some (misshapen (.array (some items)))
    | some (.error e) => some (.error e)
    | some other => some (misshapen other)
    | none => none
  | [], out =>
    match out.mapM id with
    | some values => some (.array (some values))
    | none => some (.error "ERR split MGET: a key was left unanswered")

def splitMget (debug : Value → String) (S : Sends F reply) (keys : List String) : Option Value :=
  let groups := groupBySlot F keys
  if groups.length ≤ 1 then S.whole keys
  else assembleMget debug (groups.map fun g => (g.2.map Prod.snd, S.part (g.2.map Prod.fst)))
    (List.replicate keys.length none)

/-! ## What a command is answered with -/

variable {v : Value}

theorem answer_of_decideNext {useReplica late : Bool} {o : Outcome}
    (h : decideNext useReplica late o = .answer v) : v.isError = true ∨ ∃ e, o = .answered e v := by
  unfold decideNext at h
  split at h
  · next e w =>
    split at h
    · split at h
      · exact .inl (Next.answer.inj h ▸ rfl)
      · cases h
    iterate 3
      split at h
      · exact .inr ⟨e, by rw [Next.answer.inj h]⟩
      · cases h
    · exact .inr ⟨e, by rw [Next.answer.inj h]⟩
  all_goals
    split at h
    · exact .inl (Next.answer.inj h ▸ rfl)
    · cases h

theorem useReplica_of_again {late u : Bool} {o : Outcome} (h : decideNext false late o = .again u) :
    u = false := by
  unfold decideNext at h
  split at h
  · split at h
    iterate 4
      split at h
      · cases h
      · exact (Next.again.inj h).symm
    cases h
  all_goals
    split at h
    · cases h
    · exact (Next.again.inj h).symm

/-- Without replicas, what answers is a master. -/
theorem forward_answer {keyed : Bool} {rounds : List Round}
    (h : (forward keyed false rounds).answer = some v) : v.isError = true ∨
      ∃ r ∈ rounds, ∃ addr e, r.master = some addr ∧ r.outcome addr = .answered e v := by
  induction rounds with
  | nil => cases h
  | cons r rounds ih =>
    have hrest : (forward keyed false rounds).answer = some v → v.isError = true ∨
        ∃ s ∈ r :: rounds, ∃ addr e, s.master = some addr ∧ s.outcome addr = .answered e v := by
      intro hu
      refine (ih hu).imp_right ?_
      rintro ⟨r', hr', hout⟩
      exact ⟨r', mem_cons_of_mem r hr', hout⟩
    have htarget : r.target keyed false = r.master := by
      rw [Round.target, Bool.and_false]
      rfl
    rw [forward, htarget] at h
    split at h
    · split at h
      · exact .inl (Option.some.inj h ▸ rfl)
      · exact hrest h
    next addr hmaster =>
    split at h
    · next w hw =>
      obtain rfl := Option.some.inj h
      refine (answer_of_decideNext hw).imp_right ?_
      rintro ⟨e, hout⟩
      exact ⟨r, mem_cons_self, addr, e, hmaster, hout⟩
    · next u hu =>
      rw [useReplica_of_again hu] at h
      exact hrest h

variable {keys : List String} {addr : String}

theorem gateSlot_split {name first : String} {others : List String} (h : name ∈ splitNames) :
    SlotNode.gateSlot F.dispatcher [name :: first :: others] = some (F.slotOf first) := by
  have hnames : ∀ name ∈ splitNames, gateKeyOf name.toUpper = .place 1 := by decide +kernel
  have hkey : commandKey (name :: first :: others) = some first := by
    rw [commandKey, show commandName (name :: first :: others) =
        name.toUpper from rfl, hnames name h]
    rfl
  rw [SlotNode.gateSlot, findSome?_cons, hkey]
  rfl

namespace Sends

variable (S : Sends F reply)

/-- **The gate**: what a master named for the first key's slot replies is its owner's reply. -/
theorem gated {e : Bool} (hnamed : (∃ r ∈ S.rounds keys, r.master = some addr) ∨
      ∃ o, S.staged keys = some (addr, o))
    (hout : (∃ r ∈ S.rounds keys, r.outcome addr = .answered e v) ∨
      S.staged keys = some (addr, .answered e v)) : F.Answers reply keys v := by
  obtain herr | ⟨hne, haccepts, rfl⟩ := S.answers keys addr e v hout
  · exact .inl herr
  obtain ⟨first, others, rfl⟩ := exists_cons_of_ne_nil hne
  suffices howns : F.pairOf addr = F.ownerOf first by
    refine .inr ⟨first, rfl, ?_⟩
    rw [howns]
  by_contra hother
  obtain ⟨phase, hphase, hrecord⟩ := S.records _ addr hnamed first rfl hother
  have hrefuses : (S.node (first :: others) addr).gateRefuses F.dispatcher
      [S.name :: first :: others] = true := by
    rw [SlotNode.gateRefuses, gateSlot_split S.splits, Option.bind_some, hrecord]
    cases phase with
    | migrating => exact absurd rfl hphase
    | _ => rfl
  rw [SlotNode.accepts, hrefuses, Bool.not_true, Bool.and_false] at haccepts
  cases haccepts

theorem answer_of_loop (h : (forward true false (S.rounds keys)).answer = some v) :
    F.Answers reply keys v := by
  obtain herr | ⟨r, hr, addr, e, hmaster, hout⟩ := forward_answer h
  · exact .inl herr
  · exact S.gated (.inl ⟨r, hr, hmaster⟩) (.inl ⟨r, hr, hout⟩)

variable {S} (hmasters : S.readReplica = false)
include hmasters

theorem whole_answer (h : S.whole keys = some v) : F.Answers reply keys v := by
  rw [whole, hmasters] at h
  exact S.answer_of_loop h

theorem part_answer (h : S.part keys = some v) : F.Answers reply keys v := by
  rw [part, hmasters, if_neg Bool.false_ne_true] at h
  split at h
  · next addr o hstaged =>
    unfold forwardCollect at h
    split at h
    · next e w =>
      split at h
      · exact S.answer_of_loop h
      · obtain rfl := Option.some.inj h
        exact S.gated (.inr ⟨_, hstaged⟩) (.inr hstaged)
    · exact S.answer_of_loop h
  · exact whole_answer hmasters h

end Sends

/-! ## Counts -/

theorem sumReplies_eq {α : Type} {send : α → Option Value} {l : List α} {t n : ℤ}
    (h : sumReplies t (l.map send) = some (.integer n)) :
    ∃ m : α → ℤ, (∀ a ∈ l, send a = some (.integer (m a))) ∧ n = t + (l.map m).sum := by
  classical
  let m (a : α) : ℤ := if hk : ∃ k, send a = some (.integer k) then hk.choose else 0
  refine ⟨m, ?_⟩
  induction l generalizing t with
  | nil =>
    cases h
    exact ⟨fun a ha => (not_mem_nil ha).elim, (add_zero _).symm⟩
  | cons a l ih =>
    rw [map_cons] at h
    unfold sumReplies at h
    split at h
    · next heq => cases heq
    · next k replies heq =>
      obtain ⟨ha, rfl⟩ := List.cons.inj heq
      obtain ⟨hall, hn⟩ := ih h
      have hk : ∃ k, send a = some (.integer k) := ⟨k, ha⟩
      have hm : m a = k := (dif_pos hk).trans
        (Value.integer.inj (Option.some.inj (hk.choose_spec.symm.trans ha)))
      refine ⟨forall_mem_cons.mpr ⟨hm ▸ ha, hall⟩, ?_⟩
      rw [hn, map_cons, sum_cons, hm, add_assoc]
    · next hne _ =>
      exact (hne n h).elim

variable {route : ℕ → Option String} {D : PairData}

theorem splitByOwner_sum {S : Sends F D.count} (hmasters : S.readReplica = false) {n : ℤ}
    (h : splitByOwner S route keys = some (.integer n)) :
    sumReplies 0 ((groupByOwner F route keys).map fun g => S.whole g.2) = some (.integer n) := by
  unfold splitByOwner at h
  dsimp only at h
  split at h
  · next hle =>
    obtain rfl | ⟨o, hone⟩ := groupBy_of_length_le hle
    · obtain herr | ⟨first, hfirst, -⟩ := S.whole_answer hmasters h
      · cases herr
      · cases hfirst
    · rw [groupByOwner, hone, map_singleton, h, sumReplies, sumReplies, zero_add]
  · exact h

namespace PairData

theorem handled_nil (p : String) : D.handled p [] = 0 := by
  have hparts := D.handled_parts p [] fun _ => true
  rw [filter_nil, filter_nil] at hparts
  omega

/-- What is handled of all the keys is what is handled of each part. -/
theorem handled_eq_sum {β : Type} [DecidableEq β] (p : String) (f : String → β) (s : Finset β)
    (keys : List String) (h : ∀ k ∈ keys, f k ∈ s) :
    D.handled p keys = ∑ o ∈ s, D.handled p (keys.filter fun k => f k = o) := by
  induction s using Finset.induction_on generalizing keys with
  | empty =>
    obtain rfl : keys = [] :=
      eq_nil_iff_forall_not_mem.mpr fun k hk => Finset.notMem_empty _ (h k hk)
    rw [Finset.sum_empty, handled_nil]
  | insert o s ho ih =>
    have hrest : ∀ k ∈ keys.filter (fun k => !decide (f k = o)), f k ∈ s := by
      intro k hk
      obtain ⟨hk, hne⟩ := mem_filter.mp hk
      exact Finset.mem_of_mem_insert_of_ne (h k hk) (by simpa using hne)
    rw [Finset.sum_insert ho, D.handled_parts p keys fun k => f k = o, ih _ hrest]
    refine congrArg _ (Finset.sum_congr rfl fun o' ho' => ?_)
    have hne : o' ≠ o := fun heq => ho (heq ▸ ho')
    rw [filter_filter]
    refine congrArg _ (filter_congr fun k _ => ?_)
    by_cases hk : f k = o'
    · simp [hk, hne]
    · simp [hk]

end PairData

/-! ## Values by position -/

variable {out : List (Option Value)} {P : ℕ → Value → Prop}

theorem foldl_set {l : List (ℕ × Value)} (hl : ∀ p ∈ l, P p.1 p.2)
    (hout : ∀ i v, out[i]? = some (some v) → P i v) :
    let placed := l.foldl (fun out p => out.set p.1 (some p.2)) out
    placed.length = out.length ∧ ∀ i v, placed[i]? = some (some v) → P i v := by
  induction l generalizing out with
  | nil => exact ⟨rfl, hout⟩
  | cons p l ih =>
    obtain ⟨hp, hl⟩ := forall_mem_cons.mp hl
    have hset : ∀ i v, (out.set p.1 (some p.2))[i]? = some (some v) → P i v := by
      intro i v hv
      rw [getElem?_set] at hv
      split at hv
      · next hi =>
        split at hv
        · cases hv
          exact hi ▸ hp
        · cases hv
      · exact hout i v hv
    rw [← length_set]
    exact ih hl hset

theorem mapM_id_eq {α : Type} {out : List (Option α)} {values : List α}
    (h : out.mapM id = some values) : out = values.map some := by
  induction out generalizing values with
  | nil =>
    cases h
    rfl
  | cons a out ih =>
    simp only [mapM_cons, id, Option.bind_eq_bind, Option.bind_eq_some_iff] at h
    obtain ⟨v, rfl, vs, hvs, heq⟩ := h
    cases heq
    rw [ih hvs, map_cons]

variable {values : List Value} {debug : Value → String}

/-- **Values that the groups' replies have at their positions are in their places.** -/
theorem assembleMget_array {replies : List (List ℕ × Option Value)}
    (hreplies : ∀ positions items, (positions, some (.array (some items))) ∈ replies →
      ∀ p ∈ positions.zip items, P p.1 p.2) (hout : ∀ i v, out[i]? = some (some v) → P i v)
    (h : assembleMget debug replies out = some (.array (some values))) :
    values.length = out.length ∧ ∀ i v, values[i]? = some v → P i v := by
  induction replies generalizing out with
  | nil =>
    unfold assembleMget at h
    split at h
    · next hall =>
      cases h
      obtain rfl := mapM_id_eq hall
      refine ⟨(length_map some).symm, fun i v hv => hout i v ?_⟩
      rw [getElem?_map, hv, Option.map_some]
    · cases h
  | cons r replies ih =>
    obtain ⟨positions, reply⟩ := r
    unfold assembleMget at h
    dsimp only at h
    split at h
    · next items =>
      split at h
      · obtain ⟨hlength, hplaced⟩ := foldl_set (hreplies positions items mem_cons_self) hout
        rw [← hlength]
        exact ih (fun p items hp => hreplies p items (mem_cons_of_mem _ hp)) hplaced h
      · cases h
    all_goals cases h

theorem groupBySlot_values {S : Sends F D.mget} (hmasters : S.readReplica = false) {o : ℕ}
    {group : List (String × ℕ)} (hgroup : (o, group) ∈ groupBySlot F keys) {items : List Value}
    (h : S.part (group.map Prod.fst) = some (.array (some items))) :
    ∀ p ∈ (group.map Prod.snd).zip items, D.ValueAt F keys p.1 p.2 := by
  have hslot := of_mem_groupBy hgroup
  obtain herr | ⟨first, hfirst, hv⟩ := S.part_answer hmasters h
  · cases herr
  cases hv
  obtain ⟨q, hq, rfl⟩ := mem_map.mp (mem_of_mem_head? hfirst)
  rw [map_map, zip_map']
  intro _ hmem
  obtain ⟨p, hp, rfl⟩ := mem_map.mp hmem
  have howner : F.ownerOf q.1 = F.ownerOf p.1 :=
    Owners.ownerOf_of_slotOf ((hslot q hq).2.trans (hslot p hp).2.symm)
  refine ⟨p.1, mem_zipIdx_iff_getElem?.mp (hslot p hp).1, ?_⟩
  rw [Function.comp_apply, howner]

/-! ## Split and unsplit -/

theorem splitByOwner_count {S : Sends F D.count} (hmasters : S.readReplica = false) {n : ℤ}
    (hview : ∀ k ∈ keys, ∀ k' ∈ keys,
      route (F.slotOf k) = route (F.slotOf k') → F.ownerOf k = F.ownerOf k')
    (h : splitByOwner S route keys = some (.integer n)) : n = D.exactCount F keys := by
  obtain ⟨os, hos, hmem, hgroups⟩ := groupBy_eq (fun k => route (F.slotOf k)) keys
  have hsum := splitByOwner_sum hmasters h
  rw [groupByOwner, hgroups, map_map] at hsum
  obtain ⟨m, hm, rfl⟩ := sumReplies_eq hsum
  -- The keys of a group have one owner, which replied for all of them.
  have howner : ∀ o ∈ os, ∃ p, p ∈ keys.map F.ownerOf ∧
      (∀ k ∈ keys, route (F.slotOf k) = o → F.ownerOf k = p) ∧
      m o = D.handled p (keys.filter fun k => route (F.slotOf k) = o) := by
    intro o ho
    obtain herr | ⟨first, hfirst, hv⟩ := S.whole_answer hmasters (hm o ho)
    · cases herr
    obtain ⟨hk, hroute⟩ := mem_filter.mp (mem_of_mem_head? hfirst)
    exact ⟨F.ownerOf first, mem_map_of_mem hk, fun k hk' hko =>
      hview k hk' first hk (hko.trans (of_decide_eq_true hroute).symm), Value.integer.inj hv⟩
  choose! p hp hgroup hcount using howner
  have hfibers := Finset.sum_fiberwise_of_maps_to
    (fun o (ho : o ∈ os.toFinset) => mem_toFinset.mpr (hp o (mem_toFinset.mp ho))) m
  rw [zero_add, ← sum_toFinset m hos, ← hfibers, PairData.exactCount]
  refine Finset.sum_congr rfl fun q _ => ?_
  have hparts := D.handled_eq_sum q (fun k => route (F.slotOf k))
      (os.toFinset.filter fun o => p o = q)
    (keys.filter fun k => F.ownerOf k = q) fun k hk => by
      obtain ⟨hk, hq⟩ := mem_filter.mp hk
      have ho := (hmem _).mpr ⟨k, hk, rfl⟩
      exact Finset.mem_filter.mpr ⟨mem_toFinset.mpr ho,
        (hgroup _ ho k hk rfl).symm.trans (of_decide_eq_true hq)⟩
  rw [hparts, Nat.cast_sum]
  refine Finset.sum_congr rfl fun o ho => ?_
  obtain ⟨hin, rfl⟩ := Finset.mem_filter.mp ho
  rw [hcount o (mem_toFinset.mp hin), filter_filter]
  refine congrArg (fun keys => (D.handled (p o) keys : ℤ)) (filter_congr fun k hk => ?_)
  by_cases hko : route (F.slotOf k) = o
  · simp [hko, hgroup o (mem_toFinset.mp hin) k hk hko]
  · simp [hko]

/-! ### Keys of two owners in one group -/

theorem ite_eq_answered {c : Prop} [Decidable c] {e e' : Bool} {w : Value}
    (h : (if c then Outcome.answered e w else .unsent) = .answered e' v) : c ∧ w = v := by
  split at h
  · next hc => exact ⟨hc, (Outcome.answered.inj h).2⟩
  · cases h

/-- The owner's master is known, and replies at once. -/
def Owners.answering (F : Owners) (reply : String → List String → Value) : Sends F reply where
  name := "DEL"
  splits := by decide
  readReplica := false
  staged _ := none
  rounds keys := keys.head?.toList.map fun first =>
    ⟨false, none, some (F.master (F.ownerOf first)), fun addr =>
      if addr = F.master (F.ownerOf first) then .answered true (reply (F.ownerOf first) keys)
      else .unsent⟩
  node _ addr :=
    ⟨fun slot => if F.owner slot = F.pairOf addr then none else some .moved, [],
        fun _ => false, false,
      fun _ => .done⟩
  answers keys addr e v h := by
    obtain ⟨r, hr, hout⟩ | h := h
    · obtain ⟨first, hfirst, rfl⟩ := mem_map.mp hr
      obtain ⟨others, rfl⟩ := head?_eq_some_iff.mp (Option.mem_toList.mp hfirst)
      obtain ⟨rfl, hv⟩ := ite_eq_answered hout
      refine .inr ⟨cons_ne_nil _ _, ?_, ?_⟩
      · rw [SlotNode.accepts, SlotNode.gateRefuses, gateSlot_split (by decide), Option.bind_some]
        simp [Owners.ownerOf, F.pairOf_master]
      · rw [Owners.ownerOf, F.pairOf_master]
        exact hv.symm
    · cases h
  records keys addr h first hfirst hne := by
    obtain ⟨r, hr, hmaster⟩ | ⟨o, h⟩ := h
    · obtain ⟨first', hfirst', rfl⟩ := mem_map.mp hr
      obtain rfl := Option.some.inj ((Option.mem_toList.mp hfirst').symm.trans hfirst)
      obtain rfl := Option.some.inj hmaster
      exact absurd (F.pairOf_master _) hne
    · cases h

theorem whole_answering {first : String} {others : List String} :
    (F.answering D.count).whole (first :: others) =
      some (D.count (F.ownerOf first) (first :: others)) := by
  simp [Sends.whole, Owners.answering, forward, Round.target, decideNext, PairData.count, refusalOf]

theorem sumReplies_zero {replies : List (Option Value)} (h : ∀ r ∈ replies, r = some (.integer 0)) :
    sumReplies 0 replies = some (.integer 0) := by
  induction replies with
  | nil => rfl
  | cons r replies ih =>
    obtain ⟨rfl, hrest⟩ := forall_mem_cons.mp h
    exact ih hrest

theorem splitByOwner_zero {S : Sends F reply} (hkeys : keys ≠ [])
    (h : ∀ g ∈ groupByOwner F route keys, S.whole g.2 = some (.integer 0)) :
    splitByOwner S route keys = some (.integer 0) := by
  rw [splitByOwner]
  split
  · next hle =>
    obtain hnil | ⟨o, hone⟩ := groupBy_of_length_le hle
    · exact absurd hnil hkeys
    · exact h (o, keys) (by rw [groupByOwner, hone]; exact mem_singleton_self _)
  · exact sumReplies_zero fun r hr => by
      obtain ⟨g, hg, rfl⟩ := mem_map.mp hr
      exact h g hg

/-- A key that its group's first key has not the owner of, and nothing else is there: its owner
would count it, and none does. -/
theorem splitByOwner_misses {b : String} (hb : b ∈ keys)
    (hfirst : ∀ first ∈ (keys.filter fun k => route (F.slotOf k) = route (F.slotOf b)).head?,
      F.ownerOf first ≠ F.ownerOf b) :
    let D := PairData.having fun p k => p = F.ownerOf b && k = b
    splitByOwner (F.answering D.count) route keys = some (.integer 0) ∧
        0 < D.exactCount F keys := by
  intro D
  refine ⟨splitByOwner_zero (ne_nil_of_mem hb) fun g hg => ?_, ?_⟩
  · obtain ⟨os, -, hmem, hgroups⟩ := groupBy_eq (fun k => route (F.slotOf k)) keys
    rw [groupByOwner, hgroups] at hg
    obtain ⟨o, ho, rfl⟩ := mem_map.mp hg
    obtain ⟨k, hk, hko⟩ := (hmem o).mp ho
    obtain ⟨first, others, hgroup⟩ := exists_cons_of_ne_nil (ne_nil_of_mem
      (mem_filter.mpr ⟨hk, decide_eq_true hko⟩ : k ∈ keys.filter fun k => route (F.slotOf k) = o))
    dsimp only
    rw [hgroup, whole_answering]
    refine congrArg (fun n : ℕ => some (Value.integer n)) (countP_eq_zero.mpr fun k' hk' hhas => ?_)
    obtain ⟨howner, rfl⟩ : F.ownerOf first = F.ownerOf b ∧ k' = b := by simpa using hhas
    have hroute : route (F.slotOf k') = o := by
      rw [← hgroup] at hk'
      exact of_decide_eq_true (mem_filter.mp hk').2
    refine hfirst first ?_ howner
    rw [hroute, hgroup]
    rfl
  · refine Finset.sum_pos' (fun _ _ => Int.natCast_nonneg _)
      ⟨F.ownerOf b, mem_toFinset.mpr (mem_map_of_mem hb), Int.natCast_pos.mpr ?_⟩
    exact countP_pos_iff.mpr ⟨b, mem_filter.mpr ⟨hb, by simp⟩, by simp⟩

theorem view_of_counts (h : ∀ (D : PairData) (S : Sends F D.count), S.readReplica = false →
      ∀ n, splitByOwner S route keys = some (.integer n) → n = D.exactCount F keys) :
    ∀ k ∈ keys, ∀ k' ∈ keys,
      route (F.slotOf k) = route (F.slotOf k') → F.ownerOf k = F.ownerOf k' := by
  intro k hk k' hk' hroute
  by_contra hne
  -- One of the two has another owner than the first key of their group.
  obtain ⟨b, hb, hsame, hfirst⟩ : ∃ b ∈ keys, route (F.slotOf b) = route (F.slotOf k) ∧
      ∀ first ∈ (keys.filter fun j => route (F.slotOf j) = route (F.slotOf k)).head?,
        F.ownerOf first ≠ F.ownerOf b := by
    by_cases hown : ∀ first ∈ (keys.filter fun j => route (F.slotOf j) = route (F.slotOf k)).head?,
        F.ownerOf first ≠ F.ownerOf k
    · exact ⟨k, hk, rfl, hown⟩
    · push Not at hown
      obtain ⟨first, hin, heq⟩ := hown
      refine ⟨k', hk', hroute.symm, fun first' hin' heq' => hne ?_⟩
      obtain rfl := Option.some.inj (hin'.symm.trans hin)
      exact heq.symm.trans heq'
  rw [← hsame] at hfirst
  obtain ⟨hzero, hpos⟩ := splitByOwner_misses hb hfirst
  exact absurd (h _ _ rfl 0 hzero) hpos.ne

/-- The values are in the order of the keys, whatever the proxy's view. -/
theorem splitMget_values {S : Sends F D.mget} (hmasters : S.readReplica = false)
    (h : splitMget debug S keys = some (.array (some values))) :
    values.length = keys.length ∧ ∀ i v, values[i]? = some v → D.ValueAt F keys i v := by
  unfold splitMget at h
  dsimp only at h
  split at h
  · next hle =>
    obtain herr | ⟨first, hfirst, hv⟩ := S.whole_answer hmasters h
    · cases herr
    cases hv
    obtain hnil | ⟨o, hone⟩ := groupBy_of_length_le hle
    · rw [zipIdx_eq_nil_iff.mp hnil] at hfirst
      cases hfirst
    have hslot : ∀ {i k}, keys[i]? = some k → F.slotOf k = o := fun {i k} hk =>
      (of_mem_groupBy (hone ▸ mem_singleton_self _) (k, i)
        (mem_zipIdx_iff_getElem?.mpr hk)).2
    refine ⟨length_map _, fun i v hv => ?_⟩
    rw [getElem?_map, Option.map_eq_some_iff] at hv
    obtain ⟨k, hk, rfl⟩ := hv
    have howner : F.ownerOf first = F.ownerOf k :=
      Owners.ownerOf_of_slotOf ((hslot (head?_eq_getElem? ▸ hfirst)).trans (hslot hk).symm)
    refine ⟨k, hk, ?_⟩
    rw [howner]
  · have hplaced := assembleMget_array (P := D.ValueAt F keys)
      (fun positions items hmem => ?_) (fun i v hv => ?_) h
    · rwa [length_replicate] at hplaced
    · obtain ⟨g, hg, heq⟩ := mem_map.mp hmem
      obtain ⟨rfl, hpart⟩ := Prod.mk.inj heq
      exact groupBySlot_values hmasters hg hpart
    · cases eq_of_mem_replicate (mem_of_getElem? hv)

/-- Two pairs, and a replica of the first. -/
def twoOwners : Owners where
  dispatcher := ⟨fun k => if k = "a" then 0 else 1, false, fun _ => true,
      fun _ => true, fun _ => true⟩
  owner slot := if slot = 0 then "A" else "B"
  pairOf addr := if addr = "replica" then "A" else addr
  master p := p
  pairOf_master slot := by
    split
    · rfl
    · rfl

/-- Each pair has the keys it owns. -/
def eachItsOwn : PairData := .having fun p k => p = twoOwners.ownerOf k

/-- The replica replies; nothing was recorded there. -/
def fromReplica : Sends twoOwners eachItsOwn.mget where
  name := "MGET"
  splits := by decide
  readReplica := true
  staged _ := none
  rounds keys := [⟨false, some "replica", none, fun addr =>
    if addr = "replica" ∧ keys ≠ [] then .answered false (eachItsOwn.mget "A" keys) else .unsent⟩]
  node _ _ := ⟨fun _ => none, [], fun _ => false, true, fun _ => .done⟩
  answers keys addr e v h := by
    obtain ⟨r, hr, hout⟩ | h := h
    · obtain rfl := mem_singleton.mp hr
      obtain ⟨⟨rfl, hne⟩, hv⟩ := ite_eq_answered hout
      refine .inr ⟨hne, ?_, hv.symm⟩
      have hreads : SlotNode.unitWrites ["MGET" :: keys] = false := by
        rw [SlotNode.unitWrites, any_cons, any_nil, Bool.or_false]
        exact (by decide +kernel : isWriteCommand "MGET" = false)
      rw [SlotNode.accepts, SlotNode.gateRefuses, hreads]
      simp
    · cases h
  records keys addr h := by
    obtain ⟨r, hr, hmaster⟩ | ⟨o, h⟩ := h
    · obtain rfl := mem_singleton.mp hr
      cases hmaster
    · cases h

end Flint
