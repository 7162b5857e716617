import FlintCache.Lib.Machine
import FlintCache.Storage.StreamGroups

/-!
# Storage/GroupCounts — the counters of consumer groups

A command changes rows in the store and counters in hand, and saves the counters at the end.
Between two entries the rows in hand are `Sound`: each counter is the number of rows it counts, the
group's own perhaps ahead of an entry that has lost its consumer.  Each change of an entry is one of
four (`Sound.drop`, `Sound.gain`, `Sound.move`, `Sound.renew`).
-/

namespace Flint

open List SortedRows GroupHand GroupRows Prod
open Option (bind_some elim_some isSome_map map_eq_some_iff map_some)

variable {ι ν φ : Type} [LinearOrder ι] [LinearOrder ν]

/-! ## What is counted -/

variable {r : GroupRows ι ν} {g : StreamGroup ι} {p : PendingEntry ν}

namespace GroupRows

def tally (r : GroupRows ι ν) (n : ν) : ℕ :=
  ∑ key ∈ r.owned.keys, if (ofLex key).1 = n then 1 else 0

/-- **A pending entry is its consumer's**, and a consumer has nothing else. -/
def Paired (r : GroupRows ι ν) : Prop :=
  ∀ n id, r.owned.get (toLex (n, id)) = some () ↔ ∃ p, r.pendings.get id = some p ∧ p.consumer = n

structure Counted (g : StreamGroup ι) (r : GroupRows ι ν) : Prop where
  paired : r.Paired
  pending : g.pending = r.pendings.keys.card
  tallies : ∀ n c, r.consumers.get n = some c → c.pending = r.tally n
  owners : ∀ n id, r.owned.get (toLex (n, id)) = some () → (r.consumers.get n).isSome = true
  consumers : g.consumers = r.consumers.keys.card

theorem counted_empty (lastId : ι) (entriesRead : ℤ) :
    Counted ⟨lastId, entriesRead, 0, 0⟩ (empty : GroupRows ι ν) where
  paired n id := iff_of_false nofun (by rintro ⟨p, hp, -⟩; cases hp)
  pending := rfl
  tallies n c hc := by cases hc
  owners n id h := by cases h
  consumers := rfl

/-- **A group that is there is counted**, and one that is not has no rows. -/
def Kept (r : GroupRows ι ν) : Prop :=
  (r.group = none → r = .empty) ∧ ∀ g, r.group = some g → Counted g r

theorem kept_empty : (empty : GroupRows ι ν).Kept := ⟨fun _ => rfl, nofun⟩

theorem Counted.kept (hc : Counted g r) (hgroup : r.group = some g) : r.Kept := by
  refine ⟨fun hnone => (by cases hgroup.symm.trans hnone), fun g' hg' => ?_⟩
  obtain rfl := Option.some.inj (hgroup.symm.trans hg')
  exact hc

theorem Counted.header {g g' : StreamGroup ι} (hc : Counted g r) (hpending : g'.pending = g.pending)
    (hconsumers : g'.consumers = g.consumers) : Counted g' r :=
  ⟨hc.paired, hpending.trans hc.pending, hc.tallies, hc.owners, hconsumers.trans hc.consumers⟩

theorem Counted.rewrite (hc : Counted g r) : Kept { r with group := some g } :=
  Counted.kept { hc with } rfl

variable {id : ι}

theorem Paired.erase (h : r.Paired) (hp : r.pendings.get id = some p) :
    ((r.erasePending id).eraseOwned p.consumer id).Paired := by
  intro n i
  show (r.owned.erase _).get _ = some () ↔
      ∃ q, (r.pendings.erase id).get i = some q ∧ q.consumer = n
  rw [get_erase, get_erase]
  by_cases hi : i = id
  · rw [if_pos hi, hi]
    refine iff_of_false (fun howned => ?_) (by rintro ⟨q, hq, -⟩; cases hq)
    split at howned
    · cases howned
    · next hne =>
      obtain ⟨q, hq, rfl⟩ := (h n id).mp howned
      obtain rfl := Option.some.inj (hp.symm.trans hq)
      exact hne rfl
  have hne : toLex (n, i) ≠ toLex (p.consumer, id) := fun heq =>
    hi (congrArg snd (toLex.injective heq))
  rw [if_neg hne, if_neg hi]
  exact h n i

theorem Paired.put (h : r.Paired) (hid : r.pendings.get id = none) (p : PendingEntry ν) :
    ((r.putPending id p).putOwned p.consumer id).Paired := by
  intro n i
  show (r.owned.put _ ()).get _ = some () ↔
      ∃ q, (r.pendings.put id p).get i = some q ∧ q.consumer = n
  rw [get_put, get_put]
  by_cases hi : i = id
  · rw [if_pos hi, hi]
    constructor
    · intro howned
      split at howned
      · next heq => exact ⟨p, rfl, (congrArg fst (toLex.injective heq)).symm⟩
      · obtain ⟨q, hq, -⟩ := (h n id).mp howned
        cases hid.symm.trans hq
    · rintro ⟨q, hq, rfl⟩
      cases hq
      exact if_pos rfl
  have hne : toLex (n, i) ≠ toLex (p.consumer, id) := fun heq =>
    hi (congrArg snd (toLex.injective heq))
  rw [if_neg hne, if_neg hi]
  exact h n i

theorem tally_erase {n : ν} (h : r.owned.get (toLex (n, id)) = some ()) (n' : ν) :
    (r.eraseOwned n id).tally n' + (if n = n' then 1 else 0) = r.tally n' :=
  sum_keys_erase (fun key : ν ×ₗ ι => if (ofLex key).1 = n' then 1 else 0) (by rw [h]; rfl)

theorem tally_put {n : ν} (h : r.owned.get (toLex (n, id)) = none) (n' : ν) :
    (r.putOwned n id).tally n' = r.tally n' + if n = n' then 1 else 0 :=
  sum_keys_put (fun key : ν ×ₗ ι => if (ofLex key).1 = n' then 1 else 0) h

theorem Paired.owned_of_pending (h : r.Paired)
    (hp : r.pendings.get id = some p) : r.owned.get (toLex (p.consumer, id)) = some () :=
  (h _ _).mpr ⟨p, hp, rfl⟩

theorem Paired.not_owned (h : r.Paired) (hid : r.pendings.get id = none) (n : ν) :
    r.owned.get (toLex (n, id)) = none := by
  refine Option.eq_none_iff_forall_ne_some.mpr fun u hu => ?_
  obtain ⟨p, hp, -⟩ := (h n id).mp hu
  cases hid.symm.trans hp

end GroupRows

variable {h : GroupHand ι ν} {name : ν}

namespace GroupHand

variable {owed : ℕ}

def view (h : GroupHand ι ν) (n : ν) : Option GroupConsumer :=
  (h.held.bind fun nc => if n = nc.1 then some nc.2 else none).or
    ((h.others.get n).or (h.rows.consumers.get n))

def unsaved (h : GroupHand ι ν) : ℕ :=
  h.held.elim 0 fun nc => if (h.rows.consumers.get nc.1).isSome then 0 else 1

/-- **What holds of the rows in hand**; the group's counter may be ahead by what is owed. -/
structure Sound (owed : ℕ) (h : GroupHand ι ν) : Prop where
  paired : h.rows.Paired
  pending : h.group.pending = h.rows.pendings.keys.card + owed
  tallies : ∀ n c, h.view n = some c → c.pending = h.rows.tally n
  owners : ∀ n id, h.rows.owned.get (toLex (n, id)) = some () → (h.view n).isSome = true
  consumers : h.group.consumers = h.rows.consumers.keys.card + h.unsaved
  known : ∀ n, (h.others.get n).isSome = true → (h.rows.consumers.get n).isSome = true
  apart : ∀ nc, h.held = some nc → h.others.get nc.1 = none

theorem lose_cases (owner : ν) :
    (∃ c, h.held = some (owner, c) ∧ h.lose owner = { h with held := some (owner, c.lessOne) }) ∨
      (∀ nc, h.held = some nc → owner ≠ nc.1) ∧ h.lose owner = h.loseOther owner := by
  unfold lose
  cases hheld : h.held with
  | none => exact .inr ⟨nofun, rfl⟩
  | some nc =>
    by_cases hm : owner = nc.1
    · subst hm
      exact .inl ⟨nc.2, rfl, if_pos rfl⟩
    · refine .inr ⟨fun nc' hnc => ?_, if_neg hm⟩
      obtain rfl := Option.some.inj hnc
      exact hm

theorem view_lose (owner n : ν) : (h.lose owner).view n =
      if n = owner then (h.view owner).map GroupConsumer.lessOne else h.view n := by
  obtain ⟨c, hheld, heq⟩ | ⟨hne, heq⟩ := h.lose_cases owner
  · rw [heq]
    unfold view
    rw [hheld]
    by_cases hn : n = owner <;> simp [hn]
  have hnone : (h.held.bind fun nc => if owner = nc.1 then some nc.2 else none) = none :=
    Option.bind_eq_none_iff.mpr fun nc hnc => if_neg (hne nc hnc)
  rw [heq]
  unfold loseOther view
  by_cases hn : n = owner
  · rw [if_pos hn, hn]
    cases hload : (h.others.get owner).or (h.rows.consumers.get owner) with
    | none =>
      rw [hnone, hload]
      rfl
    | some o =>
      rw [hnone, get_put, if_pos rfl]
      rfl
  · rw [if_neg hn]
    cases (h.others.get owner).or (h.rows.consumers.get owner) with
    | none => rfl
    | some o => rw [get_put, if_neg hn]

theorem lose_frame (owner : ν) : (h.lose owner).rows = h.rows ∧ (h.lose owner).group = h.group ∧
    (h.lose owner).held.map fst = h.held.map fst := by
  obtain ⟨c, hheld, heq⟩ | ⟨-, heq⟩ := h.lose_cases owner
  · rw [heq, hheld]
    exact ⟨rfl, rfl, rfl⟩
  rw [heq]
  unfold loseOther
  split
  · exact ⟨rfl, rfl, rfl⟩
  · exact ⟨rfl, rfl, rfl⟩

theorem unsaved_congr {h' : GroupHand ι ν} (hheld : h'.held.map Prod.fst = h.held.map Prod.fst)
    (hrows : h'.rows.consumers = h.rows.consumers) : h'.unsaved = h.unsaved := by
  unfold unsaved
  rw [hrows]
  cases hh : h.held with
  | none =>
    rw [hh] at hheld
    rw [Option.map_eq_none_iff.mp hheld]
  | some nc =>
    rw [hh] at hheld
    obtain ⟨nc', hnc', heq⟩ := map_eq_some_iff.mp hheld
    rw [hnc']
    simp only [elim_some, heq]

theorem others_lose (hknown : ∀ n, (h.others.get n).isSome → (h.rows.consumers.get n).isSome)
    (hapart : ∀ nc, h.held = some nc → h.others.get nc.1 = none) (owner : ν) :
    (∀ n, ((h.lose owner).others.get n).isSome → (h.rows.consumers.get n).isSome) ∧
      ∀ nc, (h.lose owner).held = some nc → (h.lose owner).others.get nc.1 = none := by
  obtain ⟨c, hheld, heq⟩ | ⟨hne, heq⟩ := h.lose_cases owner
  · rw [heq]
    refine ⟨hknown, fun nc hnc => ?_⟩
    cases hnc
    exact hapart (owner, c) hheld
  rw [heq]
  unfold loseOther
  split
  · next o hload =>
    refine ⟨fun n hn => ?_, fun nc hnc => get_put.trans
      ((if_neg (hne nc hnc).symm).trans (hapart nc hnc))⟩
    rw [get_put] at hn
    split at hn
    · next heq =>
      rw [heq]
      cases hothers : h.others.get owner with
      | some c => exact hknown owner (by rw [hothers]; rfl)
      | none =>
        rw [hothers, Option.none_or] at hload
        rw [hload]
        rfl
    · exact hknown n hn
  · exact ⟨hknown, hapart⟩

theorem Sound.drop (hs : h.Sound owed) {id : ι} (hp : h.rows.pendings.get id = some p) :
    (lose { h with rows := (h.rows.erasePending id).eraseOwned p.consumer id } p.consumer).Sound
      (owed + 1) := by
  have howned := hs.paired.owned_of_pending hp
  have hsome : (h.rows.pendings.get id).isSome := by
    rw [hp]
    rfl
  obtain ⟨c, hc⟩ := Option.isSome_iff_exists.mp (hs.owners _ _ howned)
  have htally : ∀ n, ((h.rows.erasePending id).eraseOwned p.consumer id).tally n +
      (if p.consumer = n then 1 else 0) = h.rows.tally n :=
    tally_erase (r := h.rows.erasePending id) howned
  generalize hh' : ({ h with rows := (h.rows.erasePending id).eraseOwned p.consumer id } :
    GroupHand ι ν) = h'
  have hrows' : h'.rows = (h.rows.erasePending id).eraseOwned p.consumer id := by rw [← hh']
  have hview' (n : ν) : h'.view n = h.view n := by
    rw [← hh']
    rfl
  obtain ⟨hrows, hgroup, hheld⟩ := h'.lose_frame p.consumer
  obtain ⟨hknown, hapart⟩ := h'.others_lose (hh' ▸ hs.known) (hh' ▸ hs.apart) p.consumer
  refine ⟨?_, ?_, fun n c' hc' => ?_, fun n i hi => ?_, ?_, ?_, hapart⟩
  · rw [hrows, hrows']
    exact hs.paired.erase hp
  · have hcard := card_keys_erase hsome
    have hpending := hs.pending
    rw [hgroup, hrows, hrows', ← hh']
    show h.group.pending = (h.rows.pendings.erase id).keys.card + (owed + 1)
    omega
  · have hn := htally n
    rw [view_lose, hview', hview'] at hc'
    rw [hrows, hrows']
    split at hc'
    · next heq =>
      rw [hc] at hc'
      cases hc'
      have hbefore := hs.tallies _ c hc
      rw [heq] at hn ⊢
      rw [if_pos rfl] at hn
      show c.pending - 1 = _
      omega
    · next hne =>
      have hbefore := hs.tallies n c' hc'
      rw [if_neg (Ne.symm hne)] at hn
      omega
  · rw [hrows, hrows'] at hi
    have hbefore : h.rows.owned.get (toLex (n, i)) = some () := by
      have hget : (h.rows.owned.erase (toLex (p.consumer, id))).get (toLex (n, i)) = some () := hi
      rw [get_erase] at hget
      split at hget
      · cases hget
      · exact hget
    rw [view_lose, hview', hview']
    split
    · rw [hc]
      rfl
    · exact hs.owners n i hbefore
  · have hunsaved : (h'.lose p.consumer).unsaved = h.unsaved :=
      unsaved_congr (hheld.trans (by rw [← hh'])) (by rw [hrows, hrows']; rfl)
    rw [hgroup, hrows, hrows', hunsaved, ← hh']
    exact hs.consumers
  · rw [hrows]
    exact hknown

variable {c : GroupConsumer}

theorem view_gain (hheld : h.held = some (name, c)) (n : ν) :
    h.gain.view n = if n = name then some { c with pending := c.pending + 1 } else h.view n := by
  unfold gain view
  rw [hheld]
  by_cases hn : n = name
  · simp [hn]
  · simp [hn]

theorem Sound.gain (hs : h.Sound (owed + 1))
    (hheld : h.held = some (name, c)) {id : ι} (hid : h.rows.pendings.get id = none)
    (hp : p.consumer = name) :
    (GroupHand.gain { h with rows := (h.rows.putPending id p).putOwned name id }).Sound owed := by
  have hview (n : ν) : (GroupHand.gain
      { h with rows := (h.rows.putPending id p).putOwned name id }).view n =
        if n = name then some { c with pending := c.pending + 1 } else h.view n :=
    view_gain (h := { h with rows := (h.rows.putPending id p).putOwned name id }) hheld n
  have hown : h.view name = some c := by
    unfold view
    rw [hheld]
    simp
  have htally : ∀ n, ((h.rows.putPending id p).putOwned name id).tally n =
      h.rows.tally n + if name = n then 1 else 0 :=
    tally_put (r := h.rows.putPending id p) (hs.paired.not_owned hid name)
  refine ⟨hp ▸ hs.paired.put hid p, ?_, fun n c' hc' => ?_, fun n i hi => ?_, ?_, hs.known, ?_⟩
  · have hpending := hs.pending
    show h.group.pending = (h.rows.pendings.put id p).keys.card + owed
    rw [card_keys_put hid]
    omega
  · rw [hview] at hc'
    show c'.pending = ((h.rows.putPending id p).putOwned name id).tally n
    rw [htally n]
    split at hc'
    · next heq =>
      cases hc'
      rw [heq, if_pos rfl, ← hs.tallies name c hown]
    · next hne => rw [if_neg (Ne.symm hne), hs.tallies n c' hc', Nat.add_zero]
  · rw [hview]
    split
    · rfl
    · next hne =>
      have hget : (h.rows.owned.put (toLex (name, id)) ()).get (toLex (n, i)) = some () := hi
      rw [get_put, if_neg fun heq => hne (congrArg fst (toLex.injective heq))] at hget
      exact hs.owners n i hget
  · have hunsaved : (GroupHand.gain
        { h with rows := (h.rows.putPending id p).putOwned name id }).unsaved = h.unsaved :=
      unsaved_congr (by rw [GroupHand.gain, Option.map_map]; rfl) rfl
    rw [hunsaved]
    exact hs.consumers
  · intro nc hnc
    obtain ⟨nc', hnc', rfl⟩ := map_eq_some_iff.mp hnc
    exact hs.apart nc' hnc'

variable {p q : PendingEntry ν}

theorem Sound.shrink (hs : h.Sound (owed + 1)) :
    ({ h with group := { h.group with pending := h.group.pending - 1 } } : GroupHand ι ν).Sound
      owed := by
  refine { hs with pending := ?_ }
  show h.group.pending - 1 = h.rows.pendings.keys.card + owed
  have hpending := hs.pending
  omega

namespace Sound

variable (hs : h.Sound owed)
include hs

theorem congr {h' : GroupHand ι ν} (hpending : h'.group.pending = h.group.pending)
    (hconsumers : h'.group.consumers = h.group.consumers)
    (hheld : h'.held.map (Prod.map id GroupConsumer.pending) =
      h.held.map (Prod.map id GroupConsumer.pending))
    (hothers : h'.others = h.others) (hstore : h'.rows.consumers = h.rows.consumers)
    (howned : h'.rows.owned = h.rows.owned)
    (hpendings : ∀ i, (h'.rows.pendings.get i).map PendingEntry.consumer =
      (h.rows.pendings.get i).map PendingEntry.consumer) : h'.Sound owed := by
  have hview (n : ν) : (h'.view n).map GroupConsumer.pending =
      (h.view n).map GroupConsumer.pending := by
    unfold view
    rw [hothers, hstore]
    cases hh : h.held with
    | none =>
      rw [hh] at hheld
      rw [Option.map_eq_none_iff.mp hheld]
    | some nc =>
      rw [hh] at hheld
      obtain ⟨nc', hnc', heq⟩ := map_eq_some_iff.mp hheld
      obtain ⟨hname, hcount⟩ := Prod.mk.inj heq
      have hname : nc'.1 = nc.1 := hname
      rw [hnc', bind_some, bind_some, hname]
      split
      · exact congrArg some hcount
      · rfl
  have hkeys : h'.rows.pendings.keys = h.rows.pendings.keys := Finset.ext fun i => by
    rw [SortedRows.mem_keys, SortedRows.mem_keys, ← isSome_map (f := PendingEntry.consumer),
      hpendings, isSome_map]
  have hnames : h'.held.map Prod.fst = h.held.map Prod.fst := by
    have hfst := congrArg (Option.map Prod.fst) hheld
    rwa [Option.map_map, Option.map_map] at hfst
  have htally (n : ν) : h'.rows.tally n = h.rows.tally n := by
    unfold tally
    rw [howned]
  refine ⟨fun n i => ?_, ?_, fun n c hc => ?_, fun n i hi => ?_, ?_, fun n hn => ?_,
    fun nc hnc => ?_⟩
  · rw [howned, hs.paired n i, ← map_eq_some_iff, ← map_eq_some_iff, hpendings]
  · rw [hpending, hkeys]
    exact hs.pending
  · have hmap := hview n
    rw [hc] at hmap
    obtain ⟨c', hc', heq⟩ := map_eq_some_iff.mp hmap.symm
    rw [htally, ← hs.tallies n c' hc', heq]
  · rw [howned] at hi
    have hsome := hs.owners n i hi
    rwa [← isSome_map (f := GroupConsumer.pending), hview, isSome_map]
  · rw [hconsumers, hstore, unsaved_congr hnames hstore]
    exact hs.consumers
  · rw [hothers] at hn
    rw [hstore]
    exact hs.known n hn
  have hfst : h.held.map Prod.fst = some nc.1 := by
    rw [← hnames, hnc]
    rfl
  obtain ⟨nc', hnc', heq⟩ := map_eq_some_iff.mp hfst
  rw [hothers, ← heq]
  exact hs.apart nc' hnc'

theorem grow : h.grow.Sound (owed + 1) := by
  refine { hs with pending := ?_ }
  show h.group.pending + 1 = h.rows.pendings.keys.card + (owed + 1)
  have hpending := hs.pending
  omega

theorem active (now : ℕ) : (h.active now).Sound owed :=
  hs.congr rfl rfl (by rw [GroupHand.active, Option.map_map]; rfl) rfl rfl rfl fun _ => rfl

theorem renew {id : ι} (hp : h.rows.pendings.get id = some p) (hq : q.consumer = p.consumer) :
    ({ h with rows := h.rows.putPending id q } : GroupHand ι ν).Sound owed := by
  refine hs.congr rfl rfl rfl rfl rfl rfl fun i => ?_
  show ((h.rows.pendings.put id q).get i).map _ = _
  rw [get_put]
  split
  · next heq => rw [heq, hp, map_some, map_some, hq]
  · rfl

end Sound

/-! ### Moving an entry -/

theorem loseOther_rows (owner : ν) : (h.loseOther owner).rows = h.rows := by
  unfold loseOther
  split
  · rfl
  · rfl

theorem loseOther_held (owner : ν) : (h.loseOther owner).held = h.held := by
  unfold loseOther
  split
  · rfl
  · rfl

theorem loseOther_with_rows (h : GroupHand ι ν) (r : GroupRows ι ν)
    (hr : r.consumers = h.rows.consumers) (owner : ν) :
    loseOther { h with rows := r } owner = { h.loseOther owner with rows := r } := by
  unfold loseOther
  dsimp only
  rw [hr]
  split
  · rfl
  · rfl

theorem Sound.move (hs : h.Sound owed) (hheld : h.held = some (name, c)) {id : ι}
    (hp : h.rows.pendings.get id = some p) (hne : p.consumer ≠ name) (hq : q.consumer = name) :
    (GroupHand.gain { h.loseOther p.consumer with
      rows := ((h.rows.eraseOwned p.consumer id).putPending id q).putOwned name id }).Sound
        owed := by
  have hdrop := hs.drop hp
  have hlose : lose { h with rows := (h.rows.erasePending id).eraseOwned p.consumer id }
      p.consumer = { h.loseOther p.consumer with
        rows := (h.rows.erasePending id).eraseOwned p.consumer id } := by
    refine Eq.trans ?_ (loseOther_with_rows h
      ((h.rows.erasePending id).eraseOwned p.consumer id) rfl p.consumer)
    rw [hheld]
    exact if_neg hne
  rw [hlose] at hdrop
  have hgain := hdrop.gain (c := c) (p := q)
    ((loseOther_held _).trans hheld) (get_erase.trans (if_pos rfl)) hq
  have hrows : (((h.rows.erasePending id).eraseOwned p.consumer id).putPending id q).putOwned
      name id = ((h.rows.eraseOwned p.consumer id).putPending id q).putOwned name id := by
    unfold putOwned putPending eraseOwned erasePending
    rw [put_erase]
  rwa [hrows] at hgain

/-- **The rows in hand of a command for a consumer**, between two entries. -/
structure Ready (name : ν) (h : GroupHand ι ν) : Prop where
  sound : h.Sound 0
  held : ∃ c, h.held = some (name, c)

theorem Ready.gain_of (hs : (gain { h with rows := r }).Sound 0) (hheld : h.held = some (name, c)) :
    (gain { h with rows := r }).Ready name := by
  refine ⟨hs, { c with pending := c.pending + 1 }, ?_⟩
  rw [hheld]
  rfl

theorem Sound.forget (hs : h.Sound 0) {id : ι}
    (hp : h.rows.pendings.get id = some p) : (h.forget id p).Sound 0 :=
  (hs.drop hp).shrink

namespace Ready

variable (hr : h.Ready name)
include hr

theorem active (now : ℕ) : (h.active now).Ready name := by
  obtain ⟨c, hc⟩ := hr.held
  refine ⟨hr.sound.active now, { c with activeMs := some now }, ?_⟩
  unfold GroupHand.active
  rw [hc]
  rfl

theorem deliver (now : ℕ) (id : ι) : (h.deliver name now id).Ready name := by
  obtain ⟨c, hc⟩ := hr.held
  unfold GroupHand.deliver
  cases hp : h.rows.pendings.get id with
  | none =>
    have hgain := hr.sound.grow.gain hc hp (p := ⟨name, now, 1⟩) rfl
    exact (Ready.gain_of (h := h.grow) hgain hc).active now
  | some p =>
    dsimp only
    by_cases hname : p.consumer = name
    · rw [if_pos hname]
      have howned : h.rows.owned.put (toLex (name, id)) () = h.rows.owned :=
        ext_get fun key => by
          rw [get_put]
          split
          · next heq => rw [heq, ← hname, hr.sound.paired.owned_of_pending hp]
          · rfl
      have hrenew := hr.sound.renew hp (q := ⟨name, now, 1⟩) hname.symm
      have hrows : (h.rows.putPending id ⟨name, now, 1⟩).putOwned name id =
          h.rows.putPending id ⟨name, now, 1⟩ := by
        unfold putOwned putPending
        rw [howned]
      rw [hrows]
      exact Ready.active ⟨hrenew, c, hc⟩ now
    · rw [if_neg hname, loseOther_with_rows h (h.rows.eraseOwned p.consumer id) rfl]
      have hmove := hr.sound.move hc hp hname (q := ⟨name, now, 1⟩) rfl
      exact (Ready.gain_of hmove ((loseOther_held _).trans hc)).active now

variable {id : ι}

theorem take (hp : h.rows.pendings.get id = some p) (hq : q.consumer = p.consumer) :
    (h.take name id q true).Ready name := by
  obtain ⟨c, hc⟩ := hr.held
  unfold GroupHand.take
  by_cases hname : p.consumer = name
  · rw [if_neg (by rw [hq, hname]; simp)]
    exact ⟨hr.sound.renew hp hname.symm, c, hc⟩
  rw [if_pos (Or.inr (by rw [hq]; exact hname))]
  rw [if_pos rfl, hq, loseOther_with_rows h (h.rows.eraseOwned p.consumer id) rfl]
  have hmove := hr.sound.move hc hp hname (q := { q with consumer := name }) rfl
  exact Ready.gain_of hmove ((loseOther_held _).trans hc)

theorem take_forced (hid : h.rows.pendings.get id = none) (q : PendingEntry ν) :
    (h.grow.take name id q false).Ready name := by
  obtain ⟨c, hc⟩ := hr.held
  unfold GroupHand.take
  rw [if_pos (Or.inl rfl)]
  have hgain := hr.sound.grow.gain hc hid (p := { q with consumer := name }) rfl
  exact Ready.gain_of (h := h.grow) hgain hc

theorem forget (hp : h.rows.pendings.get id = some p) : (h.forget id p).Ready name := by
  refine ⟨hr.sound.forget hp, ?_⟩
  obtain ⟨c, hc⟩ := hr.held
  have hfst : (h.forget id p).held.map fst = some name := by
    refine (lose_frame p.consumer).2.2.trans ?_
    rw [hc]
    rfl
  obtain ⟨⟨n, c'⟩, hheld, rfl⟩ := map_eq_some_iff.mp hfst
  exact ⟨c', hheld⟩

end Ready

theorem get_pendings_forget {id i : ι} (hi : i ≠ id) (p : PendingEntry ν) :
    (h.forget id p).rows.pendings.get i = h.rows.pendings.get i := by
  unfold forget
  rw [(lose_frame _).1]
  exact get_erase.trans (if_neg hi)

theorem get_pendings_take {id i : ι} (hi : i ≠ id) (p : PendingEntry ν) (owned : Bool) :
    (h.take name id p owned).rows.pendings.get i = h.rows.pendings.get i := by
  refine get_put.trans ((if_neg hi).trans ?_)
  split
  · dsimp only [gain, putOwned]
    split
    · rw [loseOther_rows]
      rfl
    · rfl
  · rfl

/-! ### From the store and back -/

theorem tally_eq_zero {n : ν}
    (hn : ∀ id, r.owned.get (toLex (n, id)) ≠ some ()) : r.tally n = 0 := by
  refine Finset.sum_eq_zero fun key hkey => if_neg fun hfst => ?_
  obtain ⟨u, hu⟩ := Option.isSome_iff_exists.mp (mem_keys.mp hkey)
  exact hn (ofLex key).2 (hfst ▸ hu)

theorem ready_seen (hc : r.Counted g) (name : ν) (now : ℕ) : (seen r g name now).Ready name := by
  have hview {c : GroupConsumer} {g' : StreamGroup ι} (n : ν) :
      view (⟨g', some (name, c), .empty, r⟩ : GroupHand ι ν) n =
        if n = name then some c else r.consumers.get n := by
    unfold view
    rw [bind_some]
    split
    · rfl
    · rfl
  have hready {c : GroupConsumer} {g' : StreamGroup ι} (hpending : g'.pending = g.pending)
      (htally : c.pending = r.tally name) (hconsumers : g'.consumers = r.consumers.keys.card +
        (⟨g', some (name, c), .empty, r⟩ : GroupHand ι ν).unsaved) :
      (⟨g', some (name, c), .empty, r⟩ : GroupHand ι ν).Ready name := by
    refine ⟨⟨hc.paired, hpending.trans hc.pending, fun n c' hc' => ?_, fun n i hi => ?_, hconsumers,
      nofun, fun _ _ => rfl⟩, _, rfl⟩
    · rw [hview] at hc'
      split at hc'
      · next heq =>
        cases hc'
        rw [heq]
        exact htally
      · exact hc.tallies n c' hc'
    · rw [hview]
      split
      · rfl
      · exact hc.owners n i hi
  unfold seen
  cases hget : r.consumers.get name with
  | some c =>
    refine hready rfl (hc.tallies name c hget) (hc.consumers.trans ?_)
    simp [unsaved, hget]
  | none =>
    refine hready rfl (tally_eq_zero fun id hid => ?_).symm
        ((congrArg (· + 1) hc.consumers).trans ?_)
    · have hsome := hc.owners name id hid
      rw [hget] at hsome
      cases hsome
    · simp [unsaved, hget]

theorem rows_seen (r : GroupRows ι ν) (g : StreamGroup ι) (name : ν) (now : ℕ) :
    (seen r g name now).rows = r := by
  unfold seen
  split
  · rfl
  · rfl

theorem get_consumers_save (n : ν) : h.save.consumers.get n = h.view n := by
  unfold save view
  cases h.held with
  | none => exact get_putAll _ _ _
  | some nc =>
    refine get_put.trans ?_
    rw [bind_some]
    split
    · rfl
    · exact get_putAll _ _ _

theorem card_consumers_save (hs : h.Sound owed) :
    h.save.consumers.keys.card = h.rows.consumers.keys.card + h.unsaved := by
  have hkeys : (h.rows.consumers.putAll h.others.rows).keys = h.rows.consumers.keys :=
    Finset.ext fun n => by
      rw [SortedRows.mem_keys, SortedRows.mem_keys, SortedRows.get_putAll]
      cases hn : h.others.get n with
      | none => rfl
      | some c => exact iff_of_true rfl (hs.known n (by rw [hn]; rfl))
  unfold save unsaved
  cases h.held with
  | none => exact congrArg Finset.card hkeys
  | some nc =>
    dsimp only
    rw [elim_some]
    split
    · next hsome =>
      rw [keys_put_of_isSome, hkeys, Nat.add_zero]
      rwa [← SortedRows.mem_keys, hkeys, SortedRows.mem_keys]
    · next hnone =>
      rw [card_keys_put, hkeys]
      rwa [← Option.not_isSome_iff_eq_none, ← SortedRows.mem_keys, hkeys, SortedRows.mem_keys]

theorem Sound.counted_save (hs : h.Sound 0) : h.save.Counted h.group where
  __ := hs
  tallies n c hc := hs.tallies n c ((get_consumers_save n).symm.trans hc)
  owners n id hid := (congrArg Option.isSome (get_consumers_save n)).trans (hs.owners n id hid)
  consumers := hs.consumers.trans (card_consumers_save hs).symm

theorem Sound.kept_save (hs : h.Sound 0) : h.save.Kept := hs.counted_save.kept rfl

theorem sound_of_counted (hc : r.Counted g) : (⟨g, none, .empty, r⟩ : GroupHand ι ν).Sound 0 :=
  { hc with known := nofun, apart := nofun }

theorem Ready.foldl {α : Type} {f : GroupHand ι ν → α → GroupHand ι ν}
    (hf : ∀ {h : GroupHand ι ν} a, h.Ready name → (f h a).Ready name) (l : List α)
    (hr : h.Ready name) : (l.foldl f h).Ready name :=
  List.foldlRecOn l f hr fun _ hr a _ => hf a hr

end GroupHand

/-! ## Commands keep it -/

namespace GroupRows

theorem mem_ownedIds {n : ν} {id : ι} :
    id ∈ r.ownedIds n ↔ r.owned.get (toLex (n, id)) = some () := by
  unfold ownedIds
  rw [mem_map, ← mem_rows]
  constructor
  · rintro ⟨⟨key, u⟩, hrow, rfl⟩
    obtain ⟨hmem, hname⟩ := mem_filter.mp hrow
    have hkey : toLex (n, (ofLex key).2) = key := by
      rw [← of_decide_eq_true hname]
      rfl
    rw [hkey]
    exact hmem
  · intro hmem
    exact ⟨_, mem_filter.mpr ⟨hmem, decide_eq_true rfl⟩, rfl⟩

theorem nodup_ownedIds (n : ν) : (r.ownedIds n).Nodup := by
  have hkeys : ((r.owned.rows.filter fun row => (ofLex row.1).1 = n).map fst).Nodup :=
    nodup_keys.sublist (filter_sublist.map _)
  have heq : r.ownedIds n = ((r.owned.rows.filter fun row => (ofLex row.1).1 = n).map fst).map
      fun key => (ofLex key).2 := by
    rw [List.map_map]
    rfl
  rw [heq]
  refine hkeys.map_on fun key hkey key' hkey' hsnd => ?_
  obtain ⟨row, hrow, rfl⟩ := mem_map.mp hkey
  obtain ⟨row', hrow', rfl⟩ := mem_map.mp hkey'
  have hfst := of_decide_eq_true (mem_filter.mp hrow).2
  have hfst' := of_decide_eq_true (mem_filter.mp hrow').2
  exact ofLex.injective (Prod.ext (hfst.trans hfst'.symm) hsnd)

theorem length_ownedIds (n : ν) : (r.ownedIds n).length = r.tally n := by
  unfold ownedIds tally
  rw [length_map, ← weight_eq_sum, ← countP_eq_length_filter]
  unfold weight
  induction r.owned.rows with
  | nil => rfl
  | cons row rows ih =>
    rw [countP_cons, ih, map_cons, sum_cons, Nat.add_comm]
    simp

structure Dropped (r : GroupRows ι ν) (name : ν) (ids : List ι) (r' : GroupRows ι ν) : Prop where
  paired : r'.Paired
  pending : r'.pendings.keys.card + ids.length = r.pendings.keys.card
  tallies : ∀ n, n ≠ name → r'.tally n = r.tally n
  consumers : r'.consumers = r.consumers
  owned : ∀ n id, r'.owned.get (toLex (n, id)) = some () →
    r.owned.get (toLex (n, id)) = some () ∧ ¬(n = name ∧ id ∈ ids)

theorem Paired.dropAll (name : ν) {ids : List ι} (hr : r.Paired) (hnodup : ids.Nodup)
    (hids : ∀ id ∈ ids, r.owned.get (toLex (name, id)) = some ()) :
    r.Dropped name ids (ids.foldl (fun r id => (r.erasePending id).eraseOwned name id) r) := by
  induction ids generalizing r with
  | nil => exact ⟨hr, rfl, fun _ _ => rfl, rfl, fun _ _ h => ⟨h, fun hmem => nomatch hmem.2⟩⟩
  | cons id ids ih =>
    obtain ⟨hnot, hnodup⟩ := nodup_cons.mp hnodup
    have howned := hids id mem_cons_self
    obtain ⟨p, hp, rfl⟩ := (hr name id).mp howned
    have hget (n : ν) (i : ι) : ((r.erasePending id).eraseOwned p.consumer id).owned.get
        (toLex (n, i)) = if toLex (n, i) = toLex (p.consumer, id) then none
          else r.owned.get (toLex (n, i)) := get_erase
    have hrest := ih (hr.erase hp) hnodup fun i hi => by
      rw [hget, if_neg]
      · exact hids i (mem_cons_of_mem _ hi)
      · intro heq
        have hid : i = id := congrArg snd (toLex.injective heq)
        exact hnot (hid ▸ hi)
    have hcard := card_keys_erase (s := r.pendings) (k := id) (by rw [hp]; rfl)
    have hpending : (ids.foldl (fun r id => (r.erasePending id).eraseOwned p.consumer id)
      ((r.erasePending id).eraseOwned p.consumer id)).pendings.keys.card + ids.length =
        (r.pendings.erase id).keys.card := hrest.pending
    refine ⟨hrest.paired, ?_, fun n hn => ?_, hrest.consumers, fun n i hi => ?_⟩
    · rw [foldl_cons, length_cons]
      omega
    · have htally := tally_erase (r := r.erasePending id) howned n
      rw [if_neg (Ne.symm hn)] at htally
      exact (hrest.tallies n hn).trans htally
    obtain ⟨hbefore, hnotin⟩ := hrest.owned n i hi
    rw [hget] at hbefore
    split at hbefore
    · cases hbefore
    · next hne =>
      refine ⟨hbefore, fun hmem => ?_⟩
      rcases mem_cons.mp hmem.2 with hid | hin
      · exact hne (by rw [hmem.1, hid])
      · exact hnotin ⟨hmem.1, hin⟩

theorem Counted.deleteConsumer (hc : r.Counted g) (hname : (r.consumers.get name).isSome)
    {r' : GroupRows ι ν} (hdrop : r.Dropped name (r.ownedIds name) r') {g' : StreamGroup ι}
    (hpending : g'.pending = g.pending - (r.ownedIds name).length)
    (hconsumers : g'.consumers = g.consumers - 1) :
    { r' with consumers := r'.consumers.erase name, group := some g' }.Kept := by
  refine Counted.kept ⟨hdrop.paired, ?_, fun n c hget => ?_, fun n id hid => ?_, ?_⟩ rfl
  · have hcard := hdrop.pending
    have hbefore := hc.pending
    show g'.pending = r'.pendings.keys.card
    omega
  · have hget : (r'.consumers.erase name).get n = some c := hget
    rw [get_erase, hdrop.consumers] at hget
    split at hget
    · cases hget
    · next hne => exact (hc.tallies n c hget).trans (hdrop.tallies n hne).symm
  · obtain ⟨hbefore, hnot⟩ := hdrop.owned n id hid
    show ((r'.consumers.erase name).get n).isSome
    rw [get_erase, hdrop.consumers, if_neg]
    · exact hc.owners n id hbefore
    · rintro rfl
      exact hnot ⟨rfl, mem_ownedIds.mpr hbefore⟩
  have hcard := card_keys_erase hname
  have hbefore := hc.consumers
  show g'.consumers = (r'.consumers.erase name).keys.card
  rw [hdrop.consumers]
  omega

end GroupRows

open GroupStream

variable {s : GroupStream ι ν φ}

namespace GroupStream

variable {g : ν}

def Kept (s : GroupStream ι ν φ) : Prop := ∀ g, (s.groups g).Kept

theorem groups_withGroup_of_ne {g' : ν} (hne : g' ≠ g) (r : GroupRows ι ν) :
    (s.withGroup g r).groups g' = s.groups g' :=
  Function.update_of_ne hne _ _

theorem groups_xdel (ids : List ι) : (s.xdel ids).groups = s.groups := by
  unfold xdel
  induction ids generalizing s with
  | nil => rfl
  | cons id ids ih =>
    rw [foldl_cons]
    split
    · exact ih
    · exact ih

theorem ready_redeliver (hr : h.Ready name) (now : ℕ) (id : ι) :
    (s.redeliver now h id).Ready name := by
  unfold redeliver
  split
  · next p _ hp => exact ⟨hr.sound.renew hp rfl, hr.held⟩
  · exact hr

theorem ready_advance [OrderBot ι] (hr : h.Ready name) (id : ι) :
    ({ h with group := s.advance h.group id } : GroupHand ι ν).Ready name :=
  ⟨hr.sound.congr rfl rfl rfl rfl rfl rfl fun _ => rfl, hr.held⟩

theorem ready_claimOne (hr : h.Ready name) (minIdle : ℕ)
    (opts : ClaimOpts ι) (now : ℕ) (id : ι) :
    (s.claimOne name minIdle opts now h id).Ready name := by
  unfold claimOne
  dsimp only
  split
  · next p _ hp => exact hr.forget hp
  · exact hr
  · next p _ hp =>
    split
    · refine (hr.take hp ?_).active now
      rfl
    · exact hr
  · next _ hp =>
    split
    · exact (hr.take_forced hp _).active now
    · exact hr

namespace Kept

variable (hs : s.Kept)
include hs

theorem withGroup {r : GroupRows ι ν} (hr : r.Kept) : (s.withGroup g r).Kept := by
  intro g'
  by_cases hg : g' = g
  · rw [hg]
    exact (congrArg GroupRows.Kept (Function.update_self g r s.groups)).mpr hr
  · rw [groups_withGroup_of_ne hg]
    exact hs g'

theorem of_groups {s' : GroupStream ι ν φ} (h : s'.groups = s.groups) : s'.Kept := by
  intro g
  rw [h]
  exact hs g

theorem groupCreate (start : GroupStart ι) (entriesRead : ℤ) :
    (s.groupCreate g start entriesRead).Kept := by
  unfold GroupStream.groupCreate
  split
  · exact hs
  · next hnone =>
    rw [(hs g).1 hnone]
    exact hs.withGroup (counted_empty _ _).rewrite

theorem groupSetid (start : GroupStart ι) (entriesRead : ℤ) :
    (s.groupSetid g start entriesRead).Kept := by
  unfold GroupStream.groupSetid
  split
  · exact hs
  · next grp hgrp =>
    refine hs.withGroup (GroupRows.Counted.rewrite (((hs g).2 grp hgrp).header ?_ ?_))
    · rfl
    · rfl

theorem groupDestroy : (s.groupDestroy g).Kept := by
  unfold GroupStream.groupDestroy
  split
  · exact hs
  · exact hs.withGroup kept_empty

theorem consumerCreate (name : ν) (now : ℕ) : (s.consumerCreate g name now).Kept := by
  unfold GroupStream.consumerCreate
  split
  · exact hs
  · next grp hgrp =>
    cases hget : (s.groups g).consumers.get name with
    | some c => exact hs
    | none =>
      have hseen := ready_seen ((hs g).2 grp hgrp) name now
      unfold seen at hseen
      rw [hget] at hseen
      exact hs.withGroup hseen.sound.kept_save

theorem consumerDelete (name : ν) : (s.consumerDelete g name).Kept := by
  unfold GroupStream.consumerDelete
  split
  · exact hs
  · next grp hgrp =>
    have hc := (hs g).2 grp hgrp
    split
    · exact hs
    · next hsome =>
      refine hs.withGroup (hc.deleteConsumer ?_ (hc.paired.dropAll name (nodup_ownedIds name)
        fun id hid => mem_ownedIds.mp hid) rfl rfl)
      rwa [Option.isNone_iff_eq_none, ← ne_eq, ← Option.isSome_iff_ne_none] at hsome

/-! ### Reading and acknowledging -/

theorem readGroup [OrderBot ι] (name : ν) (source : ReadFrom ι) (count : Option ℕ)
    (noack poll : Bool) (now : ℕ) : (s.readGroup g name source count noack poll now).Kept := by
  unfold GroupStream.readGroup
  split
  · exact hs
  · next grp hgrp =>
    have hseen := ready_seen ((hs g).2 grp hgrp) name now
    cases source with
    | after id =>
      exact hs.withGroup (hseen.foldl (fun id hr => ready_redeliver hr now id) _).sound.kept_save
    | new =>
      dsimp only
      split
      · exact hs
      refine hs.withGroup (hseen.foldl (fun id hr => ?_) _).sound.kept_save
      split
      · exact ready_advance hr id
      · exact (ready_advance hr id).deliver now id

theorem ack (ids : List ι) : (s.ack g ids).Kept := by
  unfold GroupStream.ack
  split
  · exact hs
  · next grp hgrp =>
    have hsound := sound_of_counted ((hs g).2 grp hgrp)
    refine hs.withGroup (GroupHand.Sound.kept_save ?_)
    refine List.foldlRecOn ids _ hsound fun h hh id _ => ?_
    split
    · next p hp => exact hh.forget hp
    · exact hh

/-! ### Claiming -/

theorem claim (name : ν) (ids : List ι) (minIdle : ℕ) (opts : ClaimOpts ι)
    (now : ℕ) : (s.claim g name ids minIdle opts now).Kept := by
  unfold GroupStream.claim
  split
  · exact hs
  · next grp hgrp =>
    refine hs.withGroup (GroupHand.Ready.foldl (fun id hr => ready_claimOne hr minIdle opts now id)
      ids (ready_seen (((hs g).2 grp hgrp).header ?_ ?_) name now)).sound.kept_save
    · rfl
    · rfl

end Kept

variable {a : AutoClaim ι ν}

theorem ready_autoclaimOne (hr : a.hand.Ready name) (minIdle : ℕ)
    (justId : Bool) (now : ℕ) {row : ι × PendingEntry ν}
    (hrow : a.hand.rows.pendings.get row.1 = some row.2) :
    (s.autoclaimOne name minIdle justId now a row).hand.Ready name ∧
      ∀ i ≠ row.1, (s.autoclaimOne name minIdle justId now a row).hand.rows.pendings.get i =
        a.hand.rows.pendings.get i := by
  unfold autoclaimOne
  split
  · exact ⟨hr, fun _ _ => rfl⟩
  dsimp only
  split
  · exact ⟨hr.forget hrow, fun i hi => get_pendings_forget hi _⟩
  split
  · refine ⟨(hr.take hrow ?_).active now, fun i hi => get_pendings_take hi _ _⟩
    rfl
  · exact ⟨hr, fun _ _ => rfl⟩

theorem ready_autoclaim (name : ν) (minIdle : ℕ) (justId : Bool) (now : ℕ)
    {walk : List (ι × PendingEntry ν)} (hnodup : (walk.map fst).Nodup)
    (hr : a.hand.Ready name) (hwalk : ∀ row ∈ walk, a.hand.rows.pendings.get row.1 = some row.2) :
    (walk.foldl (s.autoclaimOne name minIdle justId now) a).hand.Ready name := by
  induction walk generalizing a with
  | nil => exact hr
  | cons row walk ih =>
    obtain ⟨hnot, hnodup⟩ := nodup_cons.mp hnodup
    obtain ⟨hr', hahead⟩ := ready_autoclaimOne (s := s) hr minIdle justId now
      (hwalk row mem_cons_self)
    refine ih hnodup hr' fun row' hrow' => ?_
    rw [hahead row'.1 fun heq => hnot (heq ▸ mem_map_of_mem hrow')]
    exact hwalk row' (mem_cons_of_mem _ hrow')

theorem Kept.autoclaim (hs : s.Kept) (name : ν) (minIdle : ℕ) (start : ι)
    (count : ℕ) (justId : Bool)
    (now : ℕ) : (s.autoclaim g name minIdle start count justId now).Kept := by
  unfold GroupStream.autoclaim
  split
  · exact hs
  · next grp hgrp =>
    have hseen := ready_seen ((hs g).2 grp hgrp) name now
    refine hs.withGroup (ready_autoclaim name minIdle justId now ?_ hseen ?_).sound.kept_save
    · exact nodup_keys.sublist (filter_sublist.map _)
    intro row hrow
    rw [rows_seen]
    exact mem_rows.mp (mem_filter.mp hrow).1

end GroupStream

/-! ## Runs -/

/-- What a group's rows say of each other: its counters, and who has what. -/
structure GroupRows.Consistent (r : GroupRows ι ν) (g : StreamGroup ι) : Prop where
  pending : g.pending = r.pendings.rows.length
  owned : ∀ row ∈ r.consumers.rows, row.2.pending = (r.ownedIds row.1).length
  paired : ∀ n id, r.owned.get (toLex (n, id)) = some () ↔
    ∃ p, r.pendings.get id = some p ∧ p.consumer = n
  owner : ∀ id p, r.pendings.get id = some p → (r.consumers.get p.consumer).isSome = true
  consumers : g.consumers = r.consumers.rows.length

theorem GroupRows.Counted.consistent {r : GroupRows ι ν} (hc : r.Counted g) : r.Consistent g where
  pending := hc.pending.trans length_rows.symm
  owned _ hrow := (hc.tallies _ _ (mem_rows.mp hrow)).trans (length_ownedIds _).symm
  paired := hc.paired
  owner id _ hp := hc.owners _ id (hc.paired.owned_of_pending hp)
  consumers := hc.consumers.trans length_rows.symm

inductive GroupOp (ι ν φ : Type)
  | xadd (id : ι) (fields : φ)
  | xdel (ids : List ι)
  | xtrim (n : ℕ)
  | groupCreate (g : ν) (start : GroupStart ι) (entriesRead : ℤ)
  | groupSetid (g : ν) (start : GroupStart ι) (entriesRead : ℤ)
  | groupDestroy (g : ν)
  | consumerCreate (g name : ν) (now : ℕ)
  | consumerDelete (g name : ν)
  | readGroup (g name : ν) (source : ReadFrom ι) (count : Option ℕ) (noack poll : Bool) (now : ℕ)
  | ack (g : ν) (ids : List ι)
  | claim (g name : ν) (ids : List ι) (minIdle : ℕ) (opts : ClaimOpts ι) (now : ℕ)
  | autoclaim (g name : ν) (minIdle : ℕ) (start : ι) (count : ℕ) (justId : Bool) (now : ℕ)

def GroupOp.group : GroupOp ι ν φ → Option ν
  | xadd .. | xdel .. | xtrim .. => none
  | groupCreate g .. | groupSetid g .. | groupDestroy g | consumerCreate g .. | consumerDelete g ..
  | readGroup g .. | ack g .. | claim g .. | autoclaim g .. => some g

section Runs

variable [OrderBot ι]

namespace GroupStream

def fresh : GroupStream ι ν φ := ⟨.empty, ⊥, ⊥, 0, fun _ => .empty⟩

def step (s : GroupStream ι ν φ) : GroupOp ι ν φ → GroupStream ι ν φ
  | .xadd id fields => s.xadd id fields
  | .xdel ids => s.xdel ids
  | .xtrim n => s.xtrim n
  | .groupCreate g start entriesRead => s.groupCreate g start entriesRead
  | .groupSetid g start entriesRead => s.groupSetid g start entriesRead
  | .groupDestroy g => s.groupDestroy g
  | .consumerCreate g name now => s.consumerCreate g name now
  | .consumerDelete g name => s.consumerDelete g name
  | .readGroup g name source count noack poll now => s.readGroup g name source count noack poll now
  | .ack g ids => s.ack g ids
  | .claim g name ids minIdle opts now => s.claim g name ids minIdle opts now
  | .autoclaim g name minIdle start count justId now =>
    s.autoclaim g name minIdle start count justId now

theorem Kept.step (hs : s.Kept) (op : GroupOp ι ν φ) : (s.step op).Kept := by
  cases op with
  | xadd id fields | xtrim n => exact hs.of_groups rfl
  | xdel ids => exact hs.of_groups (groups_xdel ids)
  | groupCreate g start entriesRead => exact hs.groupCreate start entriesRead
  | groupSetid g start entriesRead => exact hs.groupSetid start entriesRead
  | groupDestroy g => exact hs.groupDestroy
  | consumerCreate g name now => exact hs.consumerCreate name now
  | consumerDelete g name => exact hs.consumerDelete name
  | readGroup g name source count noack poll now =>
    exact hs.readGroup name source count noack poll now
  | ack g ids => exact hs.ack ids
  | claim g name ids minIdle opts now => exact hs.claim name ids minIdle opts now
  | autoclaim g name minIdle start count justId now =>
    exact hs.autoclaim name minIdle start count justId now

theorem groups_step (op : GroupOp ι ν φ) {g : ν} (hg : op.group ≠ some g) :
    (s.step op).groups g = s.groups g := by
  have hother {g' : ν} (hne : some g' ≠ some g) (r : GroupRows ι ν) :
      (s.withGroup g' r).groups g = s.groups g :=
    groups_withGroup_of_ne (fun heq => hne (congrArg some heq.symm)) r
  cases op with
  | xadd id fields | xtrim n => rfl
  | xdel ids => exact congrFun (groups_xdel ids) g
  | groupCreate | groupSetid | groupDestroy | consumerCreate | consumerDelete
      | readGroup | ack | claim
  | autoclaim =>
    simp only [step, groupCreate, groupSetid, groupDestroy, consumerCreate,
        consumerDelete, readGroup,
      ack, claim, autoclaim]
    repeat' split
    all_goals first
      | rfl
      | exact hother hg _

end GroupStream

def groupStream : Machine (GroupStream ι ν φ) (GroupOp ι ν φ) where
  init s := s = .fresh
  step s op := some (s.step op)

/-- **Consumer groups are counted**: a group's counters are the numbers of its rows, an entry is
pending for a consumer exactly if the consumer has it, and then the consumer is there; and no
command touches a group it does not name. -/
theorem groups_counted {s : GroupStream ι ν φ}
    (h : (groupStream (ι := ι) (ν := ν) (φ := φ)).Reachable s) :
    (∀ g grp, (s.groups g).group = some grp → (s.groups g).Consistent grp) ∧
      ∀ op g, op.group ≠ some g → (s.step op).groups g = s.groups g := by
  have hkept : s.Kept := by
    refine h.invariant ?_ fun s op s' _ hs _ hstep => ?_
    · rintro _ rfl g
      exact kept_empty
    · cases hstep
      exact hs.step op
  exact ⟨fun g grp hgrp => ((hkept g).2 grp hgrp).consistent, fun op g hg =>
    groups_step op hg⟩

theorem groups_counted_claimed :
    ∃ s : GroupStream ℕ ℕ Unit, (groupStream (ι := ℕ) (ν := ℕ) (φ := Unit)).exec .fresh
        [.groupCreate 0 .last 0, .xadd 5 (), .readGroup 0 1 .new none false false 10,
          .claim 0 2 [5] 0 ⟨none, none, false, false, none⟩ 20] = some s ∧
      (s.groups 0).pendings.rows.length = 1 ∧
      ∀ g grp, (s.groups g).group = some grp → (s.groups g).Consistent grp := by
  have hrun : (groupStream (ι := ℕ) (ν := ℕ) (φ := Unit)).exec .fresh
      [.groupCreate 0 .last 0, .xadd 5 (), .readGroup 0 1 .new none false false 10,
        .claim 0 2 [5] 0 ⟨none, none, false, false, none⟩ 20] = some _ := rfl
  exact ⟨_, hrun, by decide +kernel, (groups_counted (Machine.reachable_of_exec _ rfl hrun)).1⟩

end Runs

end Flint
