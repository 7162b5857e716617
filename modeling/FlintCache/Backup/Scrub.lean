import FlintCache.Migrate.Slot
import FlintCache.Storage.Rows

/-!
# Backup/Scrub — a restored pair sheds the rows of the node it was cut on

A checkpoint holds a node's own rows beside its data: role, claims, records of moving slots,
replication cursor, promotion fences, and a replica's index.  A restore keeps the fences, deletes
the other rows it knows, and refuses a pair with a row under the system's prefix it does not know.
-/

namespace Flint

open List Option Bool RowSpace AList

/-! ## System rows -/

def roleKey : Bytes := systemPrefix ++ [0x72, 0x6f, 0x6c, 0x65]

def claimStem : Bytes := systemPrefix ++ [0x63, 0x6c, 0x61, 0x69, 0x6d, 0x00]

def migrationStem : Bytes :=
  systemPrefix ++ [0x6d, 0x69, 0x67, 0x72, 0x61, 0x74, 0x69, 0x6f, 0x6e, 0x00]

def promoFenceStem : Bytes :=
  systemPrefix ++ [0x70, 0x72, 0x6f, 0x6d, 0x6f, 0x66, 0x65, 0x6e, 0x63, 0x65, 0x00]

def replStateKey : Bytes :=
  systemPrefix ++ [0x6c, 0x61, 0x73, 0x74, 0x5f, 0x61, 0x70, 0x70, 0x6c, 0x69, 0x65, 0x64]

def upidxKey (upstream : ℕ) : Bytes :=
  systemPrefix ++ [0x75, 0x70, 0x69, 0x64, 0x78, 0x00] ++ be64 (UInt64.ofNat upstream)

def promoFenceKey (e : Epoch) : Bytes :=
  promoFenceStem ++
    be64 (UInt64.ofNat (e.generation * 2 ^ 32 + e.counter))

structure SlotClaim where
  ns : Bytes
  start : ℕ
  stop : ℕ
  epoch : Epoch
  deriving DecidableEq, Repr

/-- What a row holds, with the values of the system rows decoded. -/
inductive SysVal
  | data (v : Bytes)
  | seq (n : ℕ)
  | role (c : RoleClaim)
  | claim (c : SlotClaim)
  | migration (r : MigrationRecord)
  | fence (supersedes : Epoch) (seq : ℕ)
  deriving DecidableEq, Repr

abbrev NodeRows := Table Bytes SysVal

namespace NodeRows

variable (rows : NodeRows)

def readRole : Option RoleClaim :=
  match rows.lookup roleKey with
  | some (.role c) => some c
  | _ => none

def readClaim (ns : Bytes) : Option SlotClaim :=
  match rows.lookup (claimStem ++ ns) with
  | some (.claim c) => some c
  | _ => none

def readMigration (u : SlotUnit) : Option MigrationRecord :=
  match rows.lookup u.migrationKey with
  | some (.migration r) => some r
  | _ => none

def lastApplied : ℕ :=
  match rows.lookup replStateKey with
  | some (.seq n) => n
  | _ => 0

def applyOp : ReplOp Bytes Bytes → NodeRows
  | .put k v => rows.insert k (.data v)
  | .delete k => rows.erase k

def applyOps (ops : List (ReplOp Bytes Bytes)) : NodeRows :=
  (ops.filter fun op => !RowSpace.isSystem Bytes op.key).foldl applyOp rows

end NodeRows

/-- A write on a node.  A boot is a claim and a role; a promotion is a fence and a role. -/
inductive NodeWrite
  | data (op : ReplOp Bytes Bytes)
  /-- A replicated batch; `own` is the engine's number after it, `indexed` whether the index took
  the entry. -/
  | apply (firstSeq lastSeq : ℕ) (ops : List (ReplOp Bytes Bytes)) (own : ℕ) (indexed : Bool)
  | setRole (c : RoleClaim)
  | forceRole (c : RoleClaim)
  | recordPromoFence (epoch supersedes : Epoch) (seq : ℕ)
  | setLastApplied (seq : ℕ)
  | setClaim (c : SlotClaim)
  | setMigration (u : SlotUnit) (r : MigrationRecord)
  | clearMigration (u : SlotUnit)

namespace NodeRows

def write (rows : NodeRows) : NodeWrite → Option NodeRows
  | .data op => if RowSpace.isSystem Bytes op.key then none else some (rows.applyOp op)
  | .apply first last ops own indexed =>
    if last ≤ rows.lastApplied then some rows
    else if first ≠ rows.lastApplied + 1 then none
    else
      let applied := (rows.applyOps ops).insert replStateKey (.seq last)
      if last / replUpidxStride ≠ rows.lastApplied / replUpidxStride ∧ indexed = true then
        some (applied.insert (upidxKey last) (.seq own))
      else some applied
  | .setRole c => (setRole rows.readRole c).toOption.map fun c => rows.insert roleKey (.role c)
  | .forceRole c => some (rows.insert roleKey (.role c))
  | .recordPromoFence epoch supersedes seq =>
    some (rows.insert (promoFenceKey epoch) (.fence supersedes seq))
  | .setLastApplied seq => some (rows.insert replStateKey (.seq seq))
  | .setClaim c =>
    if c.epoch ≤ ((rows.readClaim c.ns).map SlotClaim.epoch).getD .zero then none
    else some (rows.insert (claimStem ++ c.ns) (.claim c))
  | .setMigration u r =>
    (setMigration (rows.readMigration u) r).toOption.map fun r =>
      rows.insert u.migrationKey (.migration r)
  | .clearMigration u => some (rows.erase u.migrationKey)

end NodeRows

inductive FleetWrite
  | on (node : ℕ) (write : NodeWrite)
  | fullSync (node source : ℕ)

def nodeFleet : Machine (ℕ → NodeRows) FleetWrite where
  init s := ∀ i, s i = ∅
  step s
    | .on i write => ((s i).write write).map (Function.update s i)
    | .fullSync i j => some (Function.update s i (s j))

/-! ## The scrub -/

/-- The system rows of a node, by what they are for. -/
inductive SystemRow
  | fence
  | role
  | claim
  | migration
  | cursor
  deriving DecidableEq, Repr

def systemRow (k : Bytes) : Option SystemRow :=
  if promoFenceStem.isPrefixOf k then some .fence
  else if k = roleKey then some .role
  else if claimStem.isPrefixOf k then some .claim
  else if migrationStem.isPrefixOf k then some .migration
  else if k = replStateKey then some .cursor
  else none

/-- Why a pair is refused. -/
inductive ScrubError
  | unknownRow (key : Bytes)
  | noRole
  | survived (keys : List Bytes)
  deriving DecidableEq, Repr

def scrubRows : List Bytes → NodeRows → ℕ → Except ScrubError (NodeRows × ℕ)
  | [], rows, roles => .ok (rows, roles)
  | k :: doomed, rows, roles =>
    match systemRow k with
    | none => .error (.unknownRow k)
    | some .fence => scrubRows doomed rows roles
    | some .role => scrubRows doomed (rows.erase k) (roles + 1)
    | some _ => scrubRows doomed (rows.erase k) roles

def restorePair (rows : NodeRows) : Except ScrubError NodeRows :=
  match scrubRows (rows.keys.filter (RowSpace.isSystem Bytes)) rows 0 with
  | .error e => .error e
  | .ok (scrubbed, roles) =>
    if roles = 0 then .error .noRole
    else
      match scrubbed.keys.filter fun k =>
          RowSpace.isSystem Bytes k && !promoFenceStem.isPrefixOf k with
      | [] => .ok scrubbed
      | survivors => .error (.survived survivors)

/-- What a restore leaves: the data and the fences as they were, and no other system row. -/
structure Restored (rows restored : NodeRows) : Prop where
  data : ∀ k, RowSpace.isSystem Bytes k = false → restored.lookup k = rows.lookup k
  fences : ∀ k, promoFenceStem.isPrefixOf k = true → restored.lookup k = rows.lookup k
  scrubbed : ∀ k, RowSpace.isSystem Bytes k = true → promoFenceStem.isPrefixOf k = false →
    restored.lookup k = none

def withinStride (s : ℕ → NodeRows) : FleetWrite → Prop
  | .on i (.apply _ last _ _ _) => last / replUpidxStride = (s i).lastApplied / replUpidxStride
  | _ => True

/-! ## The rows of a run -/

def NodeRows.Known (rows : NodeRows) : Prop :=
  ∀ k ∈ rows, RowSpace.isSystem Bytes k = true → (systemRow k).isSome = true

namespace NodeRows.Known

variable {rows rows' : NodeRows} {k : Bytes}

section

variable (h : rows.Known)
include h

theorem insert {v : SysVal} (hk : isSystem Bytes k → (systemRow k).isSome) :
    Known (rows.insert k v) := by
  intro k' hk' hsys
  obtain rfl | hk' := (mem_insert _).mp hk'
  · exact hk hsys
  · exact h k' hk' hsys

theorem erase : Known (rows.erase k) :=
  fun k' hk' => h k' (mem_erase.mp hk').2

theorem applyOp {op : ReplOp Bytes Bytes}
    (hop : isSystem Bytes op.key = false) : Known (rows.applyOp op) := by
  cases op with
  | put k v => exact h.insert fun hsys => nomatch hop.symm.trans hsys
  | delete k => exact h.erase

theorem applyOps (ops : List (ReplOp Bytes Bytes)) : Known (rows.applyOps ops) := by
  unfold NodeRows.applyOps
  induction ops generalizing rows with
  | nil => exact h
  | cons op ops ih =>
    cases hop : isSystem Bytes op.key with
    | true =>
      rw [filter_cons_of_neg (by simp [hop])]
      exact ih h
    | false =>
      rw [filter_cons_of_pos (by simp [hop])]
      exact ih (h.applyOp hop)

theorem write {e : NodeWrite}
    (hok : ∀ first last ops own indexed, e = .apply first last ops own indexed →
      last / replUpidxStride = rows.lastApplied / replUpidxStride)
    (hw : rows.write e = some rows') : Known rows' := by
  cases e with
  | data op =>
    obtain ⟨hop, ⟨⟩⟩ := ite_none_left_eq_some.mp hw
    exact h.applyOp ((not_eq_true _).mp hop)
  | apply first last ops own indexed =>
    rw [NodeRows.write] at hw
    split at hw
    · cases hw
      exact h
    obtain ⟨-, hw⟩ := ite_none_left_eq_some.mp hw
    rw [if_neg fun hcross => hcross.1 (hok _ _ _ _ _ rfl)] at hw
    cases hw
    exact (h.applyOps ops).insert fun _ => rfl
  | setRole c =>
    obtain ⟨c', -, rfl⟩ := map_eq_some_iff.mp hw
    exact h.insert fun _ => rfl
  | setClaim c =>
    obtain ⟨-, ⟨⟩⟩ := ite_none_left_eq_some.mp hw
    exact h.insert fun _ => rfl
  | setMigration u r =>
    obtain ⟨r', -, rfl⟩ := map_eq_some_iff.mp hw
    exact h.insert fun _ => rfl
  | clearMigration u =>
    cases hw
    exact h.erase
  | _ =>
    cases hw
    exact h.insert fun _ => rfl

end

end NodeRows.Known

theorem known_of_reach {s : ℕ → NodeRows} (h : nodeFleet.Reach withinStride s) :
    ∀ i, (s i).Known := by
  refine Machine.Reach.invariant (I := fun s => ∀ i, (s i).Known) ?_ ?_ h
  · intro s hs i
    rw [hs i]
    exact fun k hk => absurd hk (notMem_empty k)
  intro s e s' _ hin hok hstep
  cases e with
  | on i w =>
    obtain ⟨rows, hw, rfl⟩ := map_eq_some_iff.mp hstep
    have hrows : NodeRows.Known rows :=
      (hin i).write (fun _ _ _ _ _ he => by subst he; exact hok) hw
    exact Function.forall_update_iff s _ |>.mpr ⟨hrows, fun j _ => hin j⟩
  | fullSync i j =>
    cases hstep
    exact Function.forall_update_iff s _ |>.mpr ⟨hin j, fun k _ => hin k⟩

/-! ## The scrub goes through -/

theorem isPrefixOf_of_systemRow {k : Bytes} (h : systemRow k = some .fence) :
    promoFenceStem.isPrefixOf k := by
  by_contra hfence
  rw [systemRow, if_neg hfence] at h
  split_ifs at h <;> cases h

theorem scrubRows_known {doomed : List Bytes} (h : ∀ k ∈ doomed, (systemRow k).isSome)
    (rows : NodeRows) (roles : ℕ) : ∃ scrubbed n, scrubRows doomed rows roles = .ok (scrubbed, n) ∧
      roles ≤ n ∧ (roleKey ∈ doomed → roles < n) ∧ ∀ k, scrubbed.lookup k =
        if k ∈ doomed ∧ promoFenceStem.isPrefixOf k = false then none else rows.lookup k := by
  induction doomed generalizing rows roles with
  | nil => exact ⟨rows, roles, rfl, le_rfl, nofun, fun k => (if_neg fun hk => nomatch hk.1).symm⟩
  | cons d doomed ih =>
    obtain ⟨hd, hdoomed⟩ := forall_mem_cons.mp h
    obtain ⟨kind, hkind⟩ := isSome_iff_exists.mp hd
    cases hfence : promoFenceStem.isPrefixOf d with
    | true =>
      have hrow : systemRow d = some .fence := if_pos hfence
      obtain ⟨scrubbed, n, heq, hle, hrole, hlook⟩ := ih hdoomed rows roles
      refine ⟨scrubbed, n, by rw [scrubRows, hrow]; exact heq, hle, fun hin => ?_, fun k => ?_⟩
      · obtain rfl | hin := mem_cons.mp hin
        · cases hfence
        · exact hrole hin
      rw [hlook k]
      refine if_congr ?_ rfl rfl
      refine ⟨fun hk => ⟨mem_cons_of_mem _ hk.1, hk.2⟩, fun hk => ⟨?_, hk.2⟩⟩
      obtain rfl | hin := mem_cons.mp hk.1
      · exact nomatch hk.2.symm.trans hfence
      · exact hin
    | false =>
      have hnot : kind ≠ .fence := by
        rintro rfl
        exact nomatch hfence.symm.trans (isPrefixOf_of_systemRow hkind)
      obtain ⟨scrubbed, n, heq, hle, hrole, hlook⟩ :=
        ih hdoomed (rows.erase d) (roles + if kind = .role then 1 else 0)
      have hstep : scrubRows (d :: doomed) rows roles = .ok (scrubbed, n) := by
        rw [scrubRows, hkind, ← heq]
        cases kind with
        | fence => exact absurd rfl hnot
        | _ => rfl
      refine ⟨scrubbed, n, hstep, (Nat.le_add_right _ _).trans hle, fun hin => ?_, fun k => ?_⟩
      · obtain rfl | hin := mem_cons.mp hin
        · rw [if_pos (some.inj hkind).symm] at hle
          exact hle
        · exact (Nat.le_add_right _ _).trans_lt (hrole hin)
      rw [hlook k]
      by_cases hk : k = d
      · subst hk
        rw [lookup_erase, ite_self, if_pos ⟨mem_cons_self, hfence⟩]
      · rw [lookup_erase_ne hk]
        refine if_congr ?_ rfl rfl
        rw [mem_cons, or_iff_right hk]

theorem restorePair_known {rows : NodeRows} (h : rows.Known) (hrole : roleKey ∈ rows) :
    ∃ restored, restorePair rows = .ok restored ∧ Restored rows restored := by
  have hdoomed : ∀ k, k ∈ rows.keys.filter (isSystem Bytes) ↔
      k ∈ rows ∧ isSystem Bytes k := fun k => by
    rw [mem_filter, AList.mem_keys]
  obtain ⟨scrubbed, n, heq, -, hcount, hlook⟩ := scrubRows_known
    (fun k hk => h k ((hdoomed k).mp hk).1 ((hdoomed k).mp hk).2) rows 0
  have hgone : ∀ k, isSystem Bytes k → promoFenceStem.isPrefixOf k = false →
      scrubbed.lookup k = none := fun k hsys hfence => by
    rw [hlook k]
    by_cases hk : k ∈ rows
    · exact if_pos ⟨(hdoomed k).mpr ⟨hk, hsys⟩, hfence⟩
    · rw [AList.lookup_eq_none.mpr hk, ite_self]
  have hnone : scrubbed.keys.filter (fun k =>
      isSystem Bytes k && !promoFenceStem.isPrefixOf k) = [] := by
    refine filter_eq_nil_iff.mpr fun k hk hboth => ?_
    obtain ⟨hsys, hfence⟩ := Bool.and_eq_true _ _ ▸ hboth
    exact AList.lookup_eq_none.mp (hgone k hsys (by simpa using hfence)) hk
  have hpos : n ≠ 0 := (hcount ((hdoomed _).mpr ⟨hrole, rfl⟩)).ne'
  refine ⟨scrubbed, ?_, fun k hk => ?_, fun k hk => ?_, hgone⟩
  · rw [restorePair, heq]
    dsimp only
    rw [if_neg hpos, hnone]
  · rw [hlook k, if_neg fun hin => absurd (hk.symm.trans ((hdoomed k).mp hin.1).2) nofun]
  · rw [hlook k, if_neg fun hin => Bool.false_ne_true (hin.2.symm.trans hk)]

/-- **A checkpoint of a master restores**: its data and promotion fences stay and no other system
row does — where no batch a replica applied crossed a stride of the index. -/
theorem master_restores {s : ℕ → NodeRows} (h : nodeFleet.Reach withinStride s) (i : ℕ)
    {epoch : Epoch} (hmaster : (s i).readRole = some ⟨.master, epoch⟩) :
    ∃ restored, restorePair (s i) = .ok restored ∧ Restored (s i) restored := by
  refine restorePair_known (known_of_reach h i) ?_
  by_contra hrole
  rw [NodeRows.readRole, lookup_eq_none.mpr hrole] at hmaster
  cases hmaster

def promotedAfter (last : ℕ) : List FleetWrite :=
  [.on 0 (.setRole ⟨.replica, ⟨0, 1⟩⟩), .on 0 (.apply 1 last [.put [0x4d] [1]] 2 true),
    .on 0 (.recordPromoFence ⟨0, 2⟩ ⟨0, 1⟩ last), .on 0 (.setRole ⟨.master, ⟨0, 2⟩⟩)]

theorem master_restores_two :
    ∃ s restored, nodeFleet.exec (fun _ => ∅) (promotedAfter 2) = some s ∧
      restorePair (s 0) = .ok restored ∧ Restored (s 0) restored := by
  obtain ⟨s, hs⟩ : ∃ s, nodeFleet.exec (fun _ => ∅) (promotedAfter 2) = some s := ⟨_, rfl⟩
  have hguard : nodeFleet.Guarded withinStride (fun _ => ∅) (promotedAfter 2) :=
    ⟨trivial, rfl, trivial, trivial, trivial⟩
  have hrole : (s 0).readRole = some ⟨.master, ⟨0, 2⟩⟩ := by
    cases hs
    rfl
  obtain ⟨restored, hrestored⟩ := master_restores (.of_exec (.init fun _ => rfl) hguard hs) 0 hrole
  exact ⟨s, restored, hs, hrestored⟩

/-- **A master that crossed a stride as a replica has no backup that restores.** -/
theorem refuses_indexed_master : ∃ s, nodeFleet.exec (fun _ => ∅) (promotedAfter 10000) = some s ∧
    (s 0).readRole = some ⟨.master, ⟨0, 2⟩⟩ ∧
      restorePair (s 0) = .error (.unknownRow (upidxKey 10000)) :=
  ⟨_, rfl, rfl, rfl⟩

end Flint
