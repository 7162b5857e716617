import FlintCache.Storage.Strings

/-!
# Storage/StringChunks — chunked strings answer as inline ones do

Two stores run the same commands at the same readings of the clock, one of which never chunks.
`StringSim` relates them: a key is missing in both, or inline in both, or chunked in the one, where
its rows hold the other's payload.  Chunks of dead versions are in nobody's way, since versions grow
(`StringSim.fresh`).
-/

namespace Flint

open List Bool StringReply Nat StringRows
open Function (update update_eq_self update_of_ne update_self)

variable {κ : Type} [DecidableEq κ] {cfg : StringConfig} {clk : StringClock}

/-- **A key in the two stores**: missing in both, inline in both, or chunked in the first alone. -/
inductive StringMetaRel (cfg : StringConfig) (rows : ℕ → SortedRows ℕ Bytes) (last : ℕ) :
    Option Stored → Option Stored → Prop
  | none : StringMetaRel cfg rows last none none
  | inline {p : Bytes} {e : ℕ} (room : p.length ≤ chunkLimit * cfg.chunk) :
    StringMetaRel cfg rows last (some (.inline p e)) (some (.inline p e))
  | chunked {v e : ℕ} {p : Bytes} (held : RowsOf cfg.chunk chunkLimit (rows v) p)
    (minted : v ≤ last) (long : cfg.inlineMax < p.length) :
    StringMetaRel cfg rows last (some (.chunked v p.length e)) (some (.inline p e))

/-- Every key is related, and versions to come have no chunks. -/
structure StringSim (cfg : StringConfig) (st pl : StringRows κ) : Prop where
  keys : ∀ k, StringMetaRel cfg (st.chunks k) st.last (st.metas k) (pl.metas k)
  fresh : ∀ k v, st.last < v → st.chunks k v = .empty

namespace StringMetaRel

variable {rows rows' : ℕ → SortedRows ℕ Bytes} {last last' : ℕ} {a b : Option Stored}

section

variable (h : StringMetaRel cfg rows last a b)
include h

theorem expire_eq : a.map Stored.expireMs = b.map Stored.expireMs := by
  cases h with
  | _ => rfl

theorem len_eq : a.map Stored.len = b.map Stored.len := by
  cases h with
  | _ => rfl

theorem isSome_eq : a.isSome = b.isSome := by
  cases h with
  | _ => rfl

theorem elim_len : a.elim 0 Stored.len = b.elim 0 Stored.len := by
  cases h with
  | _ => rfl

theorem mono (hlast : last ≤ last')
    (hrows : ∀ v ≤ last, rows' v = rows v) : StringMetaRel cfg rows' last' a b := by
  cases h with
  | none => exact .none
  | inline room => exact .inline room
  | chunked held minted long => exact .chunked (hrows _ minted ▸ held) (minted.trans hlast) long

end

theorem withExpire {s s' : Stored} (h : StringMetaRel cfg rows last (some s) (some s')) (e : ℕ) :
    StringMetaRel cfg rows last (some (s.withExpire e)) (some (s'.withExpire e)) := by
  cases h with
  | inline room => exact .inline room
  | chunked held minted long => exact .chunked held minted long

end StringMetaRel

variable {st pl : StringRows κ}

namespace StringSim

omit [DecidableEq κ] in
theorem last_lt_nextVersion (st : StringRows κ) (now : ℕ) : st.last < st.nextVersion now :=
  lt_succ_of_le (le_max_left _ _)

section

variable (h : StringSim cfg st pl)
include h

theorem setMeta (k : κ) {a b : Option Stored}
    (hab : StringMetaRel cfg (st.chunks k) st.last a b) :
    StringSim cfg (st.setMeta k a) (pl.setMeta k b) := by
  refine ⟨fun k' => ?_, h.fresh⟩
  show StringMetaRel cfg (st.chunks k') st.last (update st.metas k a k')
    (update pl.metas k b k')
  by_cases hk : k' = k
  · subst hk
    rw [update_self, update_self]
    exact hab
  · rw [update_of_ne hk, update_of_ne hk]
    exact h.keys k'

omit [DecidableEq κ] in
theorem plain {pl' : StringRows κ} (hpl : pl'.metas = pl.metas) : StringSim cfg st pl' :=
  ⟨fun k => hpl ▸ h.keys k, h.fresh⟩

omit [DecidableEq κ] in
theorem minted (now : ℕ) : StringSim cfg (st.minted now) pl :=
  ⟨fun k => (h.keys k).mono (last_lt_nextVersion st now).le fun _ _ => rfl,
    fun k v hv => h.fresh k v ((last_lt_nextVersion st now).trans hv)⟩

theorem setChunks_of_lt (now : ℕ) (k : κ) (rows : SortedRows ℕ Bytes) :
    StringSim cfg ((st.minted now).setChunks k (st.nextVersion now) rows) pl := by
  have hlt := last_lt_nextVersion st now
  refine ⟨fun k' => ?_, fun k' v hv => ?_⟩
  · refine (h.keys k').mono hlt.le fun v hv => ?_
    show update st.chunks k (update (st.chunks k) _ rows) k' v = st.chunks k' v
    by_cases hk : k' = k
    · subst hk
      rw [update_self, update_of_ne (hv.trans_lt hlt).ne]
    · rw [update_of_ne hk]
  show update st.chunks k (update (st.chunks k) _ rows) k' v = .empty
  have hafter : st.nextVersion now < v := hv
  have hne : v ≠ st.nextVersion now := hafter.ne'
  by_cases hk : k' = k
  · subst hk
    rw [update_self, update_of_ne hne]
    exact h.fresh k' v (hlt.trans hafter)
  · rw [update_of_ne hk]
    exact h.fresh k' v (hlt.trans hafter)

end

theorem readLive_frame (st : StringRows κ) (k : κ) (now : ℕ) :
    (st.readLive k now).2.chunks = st.chunks ∧ (st.readLive k now).2.last = st.last := by
  unfold readLive
  split
  · exact ⟨rfl, rfl⟩
  · split
    · exact ⟨rfl, rfl⟩
    · exact ⟨rfl, rfl⟩

theorem chunks_setChunks_self (k : κ) (v : ℕ) (rows : SortedRows ℕ Bytes) :
    (st.setChunks k v rows).chunks k v = rows := by
  show update st.chunks k (update (st.chunks k) v rows) k v = rows
  rw [update_self, update_self]

theorem readLive (h : StringSim cfg st pl) (k : κ) (now : ℕ) :
    StringSim cfg (st.readLive k now).2 (pl.readLive k now).2 ∧
      StringMetaRel cfg ((st.readLive k now).2.chunks k) (st.readLive k now).2.last
        (st.readLive k now).1 (pl.readLive k now).1 ∧
      (pl.readLive k now).2.metas k = (pl.readLive k now).1 ∧
      (st.readLive k now).2.metas k = (st.readLive k now).1 := by
  have hk := h.keys k
  have hexpire := hk.expire_eq
  unfold StringRows.readLive
  cases ha : st.metas k with
  | none =>
    rw [ha] at hk
    cases hb : pl.metas k with
    | some s' =>
      rw [hb] at hk
      cases hk
    | none => exact ⟨h, .none, hb, ha⟩
  | some s =>
    rw [ha] at hk hexpire
    cases hb : pl.metas k with
    | none =>
      rw [hb] at hk
      cases hk
    | some s' =>
      rw [hb] at hk hexpire
      have hsame : s.isExpired now = s'.isExpired now := by
        unfold Stored.isExpired
        rw [Option.some.inj hexpire]
      dsimp only
      rw [hsame]
      split
      · exact ⟨h.setMeta k .none, .none, update_self .., update_self ..⟩
      · exact ⟨h, hk, hb, ha⟩

end StringSim

/-! ## Reading -/

variable {k : κ}

section Read

variable {s s' : Stored}

section

variable (h : StringMetaRel cfg (st.chunks k) st.last (some s) (some s'))
include h

omit [DecidableEq κ] in
theorem StringMetaRel.window : st.window cfg k s = pl.window cfg.never k s' := by
  cases h with
  | inline room => rfl
  | chunked held minted long =>
    exact funext₂ fun start stop => held.readRows cfg.chunk_pos start (stop + 1)

omit [DecidableEq κ] in
theorem StringMetaRel.valueOf : st.valueOf cfg k s = pl.valueOf cfg.never k s' := by
  cases h with
  | inline room => rfl
  | @chunked v e p held minted long =>
    refine (held.readRows cfg.chunk_pos 0 p.length).trans ?_
    rw [drop_zero, Nat.sub_zero, take_length]
    rfl

end

end Read

/-! ## Writing in place -/

open ChunkEdit

variable {w : InlineView}

namespace InlineView

theorem payload_setByte (i : ℕ) (b : UInt8) : (w.setByte i b).payload = setElem w.payload i b ∧
      (w.setByte i b).expireMs = w.expireMs := by
  have hset {l : Bytes} (hl : i < l.length) (hb : l.getD i 0 = b) : l = l.set i b := by
    rw [getD_eq_getElem _ _ hl] at hb
    rw [← hb, set_getElem_self]
  unfold setByte setElem
  dsimp only
  split
  · next hle =>
    rw [max_eq_right (by omega)]
    split
    · exact ⟨rfl, rfl⟩
    · next heq => exact ⟨hset (by rw [length_resize]; omega) (not_not.mp heq), rfl⟩
  · next hlt =>
    have hself : resize w.payload w.payload.length = w.payload := by
      unfold resize
      rw [Nat.sub_self, take_length, replicate_zero, append_nil]
    rw [max_eq_left (by omega), hself]
    split
    · exact ⟨rfl, rfl⟩
    · next heq => exact ⟨hset (by omega) (not_not.mp heq), rfl⟩

theorem setByte_of_clean {i : ℕ} {b : UInt8} (h : (w.setByte i b).dirty = false) :
    w.setByte i b = w := by
  unfold setByte at h ⊢
  dsimp only at h ⊢
  split at h
  · next hle =>
    split at h
    · cases h
    · cases h
  · next hlt =>
    rw [if_neg hlt]
    split at h
    · cases h
    · next heq => rw [if_neg heq]

theorem payload_grow (n : ℕ) : (w.grow n).payload = resize w.payload (max w.payload.length n) ∧
    (w.grow n).expireMs = w.expireMs := by
  unfold grow
  split
  · rw [max_eq_right (by omega)]
    exact ⟨rfl, rfl⟩
  · rw [max_eq_left (by omega), resize, Nat.sub_self, take_length, replicate_zero, append_nil]
    exact ⟨rfl, rfl⟩

variable {n : ℕ}

theorem grow_of_clean (h : (w.grow n).dirty = false) : w.grow n = w := by
  unfold grow at h ⊢
  split at h
  · cases h
  · next hlt => rw [if_neg hlt]

theorem payload_write (pos : ℕ) (bytes : Bytes) :
    (w.write pos bytes).payload = writeList w.payload pos bytes := by
  unfold write writeList
  dsimp only
  split
  · rw [max_eq_right (by omega)]
  · rw [max_eq_left (by omega), resize, Nat.sub_self, take_length, replicate_zero, append_nil]

end InlineView

theorem ChunkEdit.set_frame (e : ChunkEdit UInt8) (size limit p : ℕ) (v : UInt8) :
    (e.set size limit p v).rows = e.rows ∧ ((e.set size limit p v).dirty = false →
      e.dirty = false ∧ (e.set size limit p v).length = e.length) := by
  unfold set
  split
  · obtain ⟨hrows, -, hdirty⟩ := patch_frame { e with length := p + 1, dirty := true } size limit
      (p / size) (p % size) [v]
    exact ⟨hrows, fun h => (by cases hdirty.symm.trans h)⟩
  · obtain ⟨hrows, hlength, hdirty⟩ := patch_frame e size limit (p / size) (p % size) [v]
    exact ⟨hrows, fun h => ⟨hdirty.symm.trans h, hlength⟩⟩

theorem ChunkEdit.grow_frame {e : ChunkEdit UInt8} (n : ℕ) :
    (e.grow n).rows = e.rows ∧ ((e.grow n).dirty = false →
      e.dirty = false ∧ (e.grow n).length = e.length) := by
  unfold grow
  split
  · exact ⟨rfl, fun h => (by cases h)⟩
  · exact ⟨rfl, fun h => ⟨h, rfl⟩⟩

/-- **Two targets under way**, of the one store and of the other, for a string that will be at least
`need` bytes long. -/
inductive StringWorking (cfg : StringConfig) (st pl : StringRows κ) (k : κ) (need : ℕ) :
    StringTarget → InlineView → Prop
  | inline {w : InlineView} (room : w.payload.length ≤ chunkLimit * cfg.chunk)
    (clean : w.dirty = false → pl.metas k = some (.inline w.payload w.expireMs)) :
    StringWorking cfg st pl k need (.inline w) w
  | chunked {v e : ℕ} {edit : ChunkEdit UInt8} {w : InlineView} (expire : e = w.expireMs)
    (holds : edit.Holds cfg.chunk chunkLimit w.payload) (rows : edit.rows = st.chunks k v)
    (minted : v ≤ st.last)
    (kept : edit.dirty = false → st.metas k = some (.chunked v edit.length e))
    (clean : w.dirty = false → pl.metas k = some (.inline w.payload w.expireMs))
    (long : cfg.inlineMax < max w.payload.length need) :
    StringWorking cfg st pl k need (.chunked v e edit) w

open InlineView

variable {need : ℕ} {t : StringTarget}

namespace StringWorking

omit [DecidableEq κ] in
theorem clean_of_same {w' : InlineView} (hsame : w'.dirty = false → w' = w)
    (hc : w.dirty = false → pl.metas k = some (.inline w.payload w.expireMs))
    (hd : w'.dirty = false) : pl.metas k = some (.inline w'.payload w'.expireMs) := by
  have heq := hsame hd
  rw [heq] at hd ⊢
  exact hc hd

section

variable (h : StringWorking cfg st pl k need t w)
include h

omit [DecidableEq κ] in
theorem byte (i : ℕ) : t.byte cfg i = (StringTarget.inline w).byte cfg.never i := by
  cases h with
  | inline room clean => rfl
  | chunked expire holds rows minted kept clean long => exact holds.get i

omit [DecidableEq κ] in
theorem len : t.len = w.payload.length := by
  cases h with
  | inline room clean => rfl
  | chunked expire holds rows minted kept clean long => exact holds.length

omit [DecidableEq κ] in
theorem setByte {i : ℕ} (hi : i < chunkLimit * cfg.chunk)
    (b : UInt8) : StringWorking cfg st pl k need (t.setByte cfg i b) (w.setByte i b) ∧
      w.payload.length ≤ (w.setByte i b).payload.length := by
  obtain ⟨hpayload, hexpire⟩ := w.payload_setByte i b
  have hlen : (w.setByte i b).payload.length = max w.payload.length (i + 1) := by
    rw [hpayload, setElem, length_set, length_resize]
  refine ⟨?_, hlen ▸ le_max_left _ _⟩
  cases h with
  | inline room clean =>
    exact .inline (by rw [hlen]; exact max_le room hi)
      (clean_of_same setByte_of_clean clean)
  | @chunked v e edit _ expire holds rows minted kept clean long =>
    obtain ⟨hrows, hkept⟩ := edit.set_frame cfg.chunk chunkLimit i b
    refine .chunked (expire.trans hexpire.symm) ?_ (hrows.trans rows) minted (fun hd => ?_)
      (clean_of_same setByte_of_clean clean) ?_
    · rw [hpayload]
      exact holds.set cfg.chunk_pos hi b
    · rw [(hkept hd).2]
      exact kept (hkept hd).1
    · rw [hlen]
      omega

omit [DecidableEq κ] in
theorem grow (hn : n ≤ chunkLimit * cfg.chunk) :
    StringWorking cfg st pl k need (t.grow n) (w.grow n) ∧ n ≤ (w.grow n).payload.length := by
  obtain ⟨hpayload, hexpire⟩ := w.payload_grow n
  have hlen : (w.grow n).payload.length = max w.payload.length n := by rw [hpayload, length_resize]
  refine ⟨?_, hlen ▸ le_max_right _ _⟩
  cases h with
  | inline room clean =>
    exact .inline (by rw [hlen]; exact max_le room hn)
      (clean_of_same grow_of_clean clean)
  | @chunked v e edit _ expire holds rows minted kept clean long =>
    obtain ⟨hrows, hkept⟩ := grow_frame (e := edit) n
    refine .chunked (expire.trans hexpire.symm) ?_ (hrows.trans rows) minted (fun hd => ?_)
      (clean_of_same grow_of_clean clean) ?_
    · rw [hpayload]
      exact holds.grow hn
    · rw [(hkept hd).2]
      exact kept (hkept hd).1
    · rw [hlen]
      omega

omit [DecidableEq κ] in
theorem write {pos : ℕ} {bytes : Bytes} (hroom : pos + bytes.length ≤ chunkLimit * cfg.chunk) :
    StringWorking cfg st pl k need (t.write cfg pos bytes) (w.write pos bytes) ∧
      pos + bytes.length ≤ (w.write pos bytes).payload.length := by
  have hpayload := w.payload_write pos bytes
  have hlen : (w.write pos bytes).payload.length = max w.payload.length (pos + bytes.length) := by
    rw [hpayload, length_writeList]
  refine ⟨?_, hlen ▸ le_max_right _ _⟩
  cases h with
  | inline room clean => exact .inline (by rw [hlen]; exact max_le room hroom) nofun
  | @chunked v e edit _ expire holds rows minted kept clean long =>
    obtain ⟨-, hrows, -, -⟩ := holds.full.patchAll cfg.chunk_pos hroom
    refine .chunked expire ?_ (hrows.trans rows) minted nofun nofun ?_
    · rw [hpayload]
      exact holds.write cfg.chunk_pos hroom
    · rw [hlen]
      omega

end

/-! ### Fields of bits -/

section

variable (h : StringWorking cfg st pl k need t w)
include h

omit [DecidableEq κ] in
theorem writeBits {offset bits : ℕ} (value : UInt64)
    (hroom : ∀ i < bits, (offset + i) / 8 < chunkLimit * cfg.chunk) :
    ∃ w', (StringTarget.inline w).writeBits cfg.never offset bits value = .inline w' ∧
      StringWorking cfg st pl k need (t.writeBits cfg offset bits value) w' ∧
      w.payload.length ≤ w'.payload.length := by
  unfold StringTarget.writeBits
  have hlist : ∀ i ∈ range bits, i < bits := fun i hi => mem_range.mp hi
  generalize range bits = l at hlist
  induction l generalizing t w with
  | nil => exact ⟨w, rfl, h, le_rfl⟩
  | cons i l ih =>
    obtain ⟨hset, hlen⟩ := h.setByte (hroom i (hlist i mem_cons_self))
      (if (value >>> UInt64.ofNat (bits - 1 - i)) &&& 1 = 1 then
        t.byte cfg ((offset + i) / 8) ||| bitMask (offset + i)
      else t.byte cfg ((offset + i) / 8) &&& ~~~bitMask (offset + i))
    obtain ⟨w', hw', hworking, hle⟩ := ih hset fun j hj => hlist j (mem_cons_of_mem _ hj)
    refine ⟨w', ?_, hworking, hlen.trans hle⟩
    rw [foldl_cons, ← hw', h.byte]
    rfl

omit [DecidableEq κ] in
theorem bitfieldOp (op : BitfieldOp)
    (hroom : op.isGet = false → ∀ i < op.bits, (op.offset + i) / 8 < chunkLimit * cfg.chunk) :
    ∃ w', (StringTarget.inline w).bitfieldOp cfg.never op = (.inline w', (t.bitfieldOp cfg op).2) ∧
      StringWorking cfg st pl k need (t.bitfieldOp cfg op).1 w' ∧
          w.payload.length ≤ w'.payload.length := by
  have hbyte : t.byte cfg = (StringTarget.inline w).byte cfg.never := funext h.byte
  obtain ⟨signed, bits, offset, kind⟩ := op
  unfold StringTarget.bitfieldOp
  rw [hbyte]
  cases kind with
  | get => exact ⟨w, rfl, h, le_rfl⟩
  | _ =>
    dsimp only
    split
    · exact ⟨w, rfl, h, le_rfl⟩
    · obtain ⟨w', hw', hworking, hle⟩ := h.writeBits _ (hroom rfl)
      exact ⟨w', by rw [hw'], hworking, hle⟩

omit [DecidableEq κ] in
theorem bitfieldOps {ops : List BitfieldOp} (hroom : ∀ op ∈ ops, op.isGet = false →
      ∀ i < op.bits, (op.offset + i) / 8 < chunkLimit * cfg.chunk) :
    ∃ w', (StringTarget.inline w).bitfieldOps cfg.never ops =
        (.inline w', (t.bitfieldOps cfg ops).2) ∧
      StringWorking cfg st pl k need (t.bitfieldOps cfg ops).1 w' ∧
      w.payload.length ≤ w'.payload.length := by
  induction ops generalizing t w with
  | nil => exact ⟨w, rfl, h, le_rfl⟩
  | cons op ops ih =>
    obtain ⟨w₁, hop, hworking, hle⟩ := h.bitfieldOp op (hroom op mem_cons_self)
    obtain ⟨w₂, hops, hworking', hle'⟩ := ih hworking fun o ho =>
      hroom o (mem_cons_of_mem _ ho)
    refine ⟨w₂, ?_, hworking', hle.trans hle'⟩
    rw [StringTarget.bitfieldOps, hop]
    dsimp only
    rw [hops]
    rfl

end

end StringWorking

namespace StringSim

theorem target (h : StringSim cfg st pl) (k : κ) (need now mint : ℕ) :
    ∃ w, (pl.target cfg.never k need now mint).1 = .inline w ∧
      StringSim cfg (st.target cfg k need now mint).2 (pl.target cfg.never k need now mint).2 ∧
      StringWorking cfg (st.target cfg k need now mint).2
          (pl.target cfg.never k need now mint).2 k need
        (st.target cfg k need now mint).1 w := by
  obtain ⟨hsim, hrel, hpl, hst⟩ := h.readLive k now
  unfold StringRows.target
  generalize st.readLive k now = r at hsim hrel hst
  generalize pl.readLive k now = r' at hsim hrel hpl
  obtain ⟨a, st⟩ := r
  obtain ⟨b, pl⟩ := r'
  have hnever : (cfg.never.chunkedWrites && decide (cfg.never.inlineMax < need)) = false := rfl
  rw [hnever]
  have hempty := hsim.fresh k (st.nextVersion mint) (last_lt_nextVersion st mint)
  have hroom : (0 : ℕ) ≤ chunkLimit * cfg.chunk := zero_le _
  cases hrel with
  | none =>
    dsimp only
    refine ⟨⟨[], 0, true⟩, rfl, ?_⟩
    split
    · next hnow =>
      refine ⟨hsim.minted mint, .chunked rfl ?_ rfl le_rfl nofun nofun ?_⟩
      · rw [hempty]
        have hnone : RowsOf cfg.chunk chunkLimit .empty ([] : Bytes) :=
          ⟨nofun, hroom, fun _ _ => rfl⟩
        exact holds_of_rowsOf cfg.chunk_pos hnone true
      · exact lt_max_of_lt_right (of_decide_eq_true (and_eq_true _ _ ▸ hnow).2)
    · exact ⟨hsim, .inline hroom nofun⟩
  | @inline p e room =>
    dsimp only
    refine ⟨⟨p, e, false⟩, rfl, ?_⟩
    split
    · next hnow =>
      refine ⟨hsim.setChunks_of_lt mint k _,
          .chunked rfl ?_ (chunks_setChunks_self ..).symm le_rfl nofun
        (fun _ => hpl) ?_⟩
      · rw [hempty]
        exact holds_of_rowsOf cfg.chunk_pos (rowsOf_splitRows cfg.chunk_pos room) true
      · exact lt_max_of_lt_right (of_decide_eq_true (and_eq_true _ _ ▸ hnow).2)
    · exact ⟨hsim, .inline room fun _ => hpl⟩
  | @chunked v e p held minted long =>
    exact ⟨⟨p, e, false⟩, rfl, hsim, .chunked rfl
      (holds_of_rowsOf cfg.chunk_pos held false) rfl minted (fun _ => hst) (fun _ => hpl)
      (lt_max_of_lt_left long)⟩

theorem finish (h : StringSim cfg st pl) (hw : StringWorking cfg st pl k need t w)
    (hneed : need ≤ w.payload.length) :
    StringSim cfg (st.finish cfg k t) (pl.finish cfg.never k (.inline w)) := by
  have hplain (hclean : w.dirty = false → pl.metas k = some (.inline w.payload w.expireMs)) :
      (pl.finish cfg.never k (.inline w)).metas =
        (pl.setMeta k (some (.inline w.payload w.expireMs))).metas := by
    show (if w.dirty then pl.setMeta k _ else pl).metas = update pl.metas k _
    split
    · rfl
    · next hd =>
      rw [← hclean (eq_false_of_not_eq_true hd)]
      exact (update_eq_self k pl.metas).symm
  cases hw with
  | inline room clean =>
    show StringSim cfg (if w.dirty then st.setMeta k _ else st)
        (if w.dirty then pl.setMeta k _ else pl)
    split
    · exact h.setMeta k (.inline room)
    · exact h
  | @chunked v e edit _ expire holds rows minted kept clean long =>
    have hlong : cfg.inlineMax < w.payload.length := by rwa [max_eq_left hneed] at long
    have hlen := holds.length
    refine StringSim.plain ?_ (hplain clean)
    show StringSim cfg (if edit.clean then st else _) _
    split
    · next hclean =>
      have hmeta := kept (by
        have hand := (and_eq_true _ _ ▸ hclean : _ ∧ _).1
        simpa using hand)
      have hset : st.setMeta k (some (.chunked v w.payload.length w.expireMs)) = st := by
        unfold StringRows.setMeta
        rw [← hlen, ← expire, ← hmeta, update_eq_self]
      rw [← hset]
      exact h.setMeta k (.chunked (rows ▸ holds.of_clean cfg.chunk_pos hclean) minted hlong)
    refine ⟨fun k' => ?_, fun k' v' hv' => ?_⟩
    · show StringMetaRel cfg (update st.chunks k (update (st.chunks k) v _) k') st.last
        (update st.metas k _ k') (update pl.metas k _ k')
      by_cases hk : k' = k
      · subst hk
        rw [update_self, update_self, update_self, hlen, expire]
        refine .chunked ?_ minted hlong
        rw [update_self]
        exact holds.finish cfg.chunk_pos
      · rw [update_of_ne hk, update_of_ne hk, update_of_ne hk]
        exact h.keys k'
    show update st.chunks k (update (st.chunks k) v _) k' v' = .empty
    have hne : v' ≠ v := (minted.trans_lt hv').ne'
    by_cases hk : k' = k
    · subst hk
      rw [update_self, update_of_ne hne]
      exact h.fresh k' v' hv'
    · rw [update_of_ne hk]
      exact h.fresh k' v' hv'

theorem putValue (h : StringSim cfg st pl) (k : κ) {payload : Bytes}
    (hroom : payload.length ≤ chunkLimit * cfg.chunk) (e mint : ℕ) :
    StringSim cfg (st.putValue cfg k payload e mint) (pl.putValue cfg.never k payload e mint) := by
  show StringSim cfg _ (pl.setMeta k (some (.inline payload e)))
  unfold StringRows.putValue
  split
  · next hnow =>
    have hlong := of_decide_eq_true (and_eq_true _ _ ▸ hnow).2
    refine (h.setChunks_of_lt mint k _).setMeta k (.chunked ?_ le_rfl hlong)
    rw [chunks_setChunks_self, h.fresh k _ (last_lt_nextVersion st mint)]
    exact rowsOf_splitRows cfg.chunk_pos hroom
  · exact h.setMeta k (.inline hroom)

end StringSim

/-! ## Integers -/

theorem length_decimalNat (h : n < 10 ^ 19) : (decimalNat n).length ≤ 19 := by
  unfold decimalNat
  split
  · decide
  · rw [length_map, length_reverse]
    exact (digits_length_le_iff (by norm_num) n).mpr h

theorem length_decimal {n : ℤ} (h : inI64 n) : (decimal n).length ≤ 20 := by
  unfold inI64 at h
  rw [and_eq_true, decide_eq_true_eq, decide_eq_true_eq] at h
  have habs : n.natAbs < 10 ^ 19 := by omega
  unfold decimal
  split
  · rw [length_cons]
    exact succ_le_succ (length_decimalNat habs)
  · exact (length_decimalNat habs).trans (by norm_num)

theorem digitsValue_eq (ds : Bytes) :
    digitsValue ds = ofDigits 10 (ds.map fun d => d.toNat - 48).reverse := by
  rw [digitsValue, ofDigits_eq_foldr, foldr_reverse, foldl_map]
  simp only [Nat.cast_id, mul_comm, add_comm]

theorem toNat_digit {d : ℕ} (hd : d < 10) : (UInt8.ofNat (48 + d)).toNat = 48 + d := by
  rw [UInt8.toNat_ofNat']
  omega

theorem toNat_of_isDigit {b : UInt8} (h : isDigit b) : 48 ≤ b.toNat ∧ b.toNat < 58 := by
  rw [isDigit, and_eq_true, decide_eq_true_eq, decide_eq_true_eq] at h
  exact ⟨UInt8.le_iff_toNat_le.mp h.1, lt_succ_of_le (UInt8.le_iff_toNat_le.mp h.2)⟩

theorem digitsValue_decimalNat (n : ℕ) : digitsValue (decimalNat n) = n := by
  unfold decimalNat
  split
  · next h => exact h.symm
  have hdigits : ((digits 10 n).map fun d => (UInt8.ofNat (48 + d)).toNat - 48) = digits 10 n := by
    refine (map_congr_left fun d hd => ?_).trans (map_id _)
    rw [toNat_digit (digits_lt_base (by norm_num) hd), Nat.add_sub_cancel_left, id]
  rw [digitsValue_eq, map_map, map_reverse, reverse_reverse, Function.comp_def, hdigits,
    ofDigits_digits]

theorem decimalNat_digitsValue {ds : Bytes} (h : ∀ b ∈ ds, isDigit b) (hne : ds ≠ [])
    (hhead : ds.head hne ≠ 48) : decimalNat (digitsValue ds) = ds := by
  have hdigits : digits 10 (digitsValue ds) = (ds.map fun d => d.toNat - 48).reverse := by
    rw [digitsValue_eq]
    refine digits_ofDigits 10 (by norm_num) _ (fun l hl => ?_) fun _ => ?_
    · obtain ⟨b, hb, rfl⟩ := mem_map.mp (mem_reverse.mp hl)
      have := toNat_of_isDigit (h b hb)
      omega
    · have := toNat_of_isDigit (h _ (head_mem hne))
      have hb : (ds.head hne).toNat ≠ 48 := fun hb => hhead (UInt8.toNat_inj.mp hb)
      rw [getLast_reverse, head_map]
      omega
  have hzero : digitsValue ds ≠ 0 := fun h0 => by simp [h0, hne] at hdigits
  rw [decimalNat, if_neg hzero, hdigits, reverse_reverse, map_map]
  refine (map_congr_left fun b hb => ?_).trans (map_id _)
  have := toNat_of_isDigit (h b hb)
  rw [Function.comp, Nat.add_sub_cancel' this.1, UInt8.ofNat_toNat, id]

theorem canonicalDigits_cons {neg : Bool} {d : UInt8} {rest : Bytes} (hd : d ≠ 48) :
    canonicalDigits neg (d :: rest) ↔ ∀ b ∈ d :: rest, isDigit b := by
  have hfirst : 49 ≤ d ↔ 48 ≤ d := by
    have hne : d.toNat ≠ 48 := fun h => hd (UInt8.toNat_inj.mp h)
    rw [UInt8.le_iff_toNat_le, UInt8.le_iff_toNat_le]
    exact ⟨fun h => le_of_lt h, fun h => lt_of_le_of_ne h hne.symm⟩
  rw [canonicalDigits.eq_3 _ _ _ fun h => absurd h hd]
  simp [isDigit, hfirst]

/-- **Redis's digits are those of the renderer**, and a minus sign is not before zero's. -/
theorem canonicalDigits_iff {neg : Bool} {ds : Bytes} :
    canonicalDigits neg ds ↔ decimalNat (digitsValue ds) = ds ∧ (neg → digitsValue ds ≠ 0) := by
  constructor
  · intro h
    by_cases hzero : ds = [48]
    · subst hzero
      exact ⟨rfl, fun hneg => by rw [hneg] at h; cases h⟩
    cases ds with
    | nil => cases h
    | cons d rest =>
      have hd : d ≠ 48 := by
        rintro rfl
        cases rest with
        | nil => exact hzero rfl
        | cons b rest => simp [canonicalDigits] at h
      have hval := decimalNat_digitsValue ((canonicalDigits_cons hd).mp h) (cons_ne_nil _ _) hd
      refine ⟨hval, fun _ h0 => ?_⟩
      rw [h0] at hval
      exact hd (List.cons.inj hval).1.symm
  · rintro ⟨hds, hneg⟩
    rw [← hds]
    generalize digitsValue ds = n at hneg
    unfold decimalNat
    split
    · next h0 =>
      cases neg with
      | true => exact absurd h0 (hneg rfl)
      | false => rfl
    · next h0 =>
      cases hr : (digits 10 n).reverse with
      | nil => exact absurd (reverse_eq_nil_iff.mp hr) (digits_ne_nil_iff_ne_zero.mpr h0)
      | cons d rest =>
        have hlt : ∀ x ∈ d :: rest, x < 10 := fun x hx =>
          digits_lt_base (by norm_num) (mem_reverse.mp (hr ▸ hx))
        have hd : d ≠ 0 := by
          simpa [getLast_eq_head_reverse, hr] using getLast_digit_ne_zero 10 h0
        have hall : ∀ b ∈ map (fun d => UInt8.ofNat (48 + d)) (d :: rest), isDigit b :=
          forall_mem_map.mpr fun x hx => by
            have := hlt x hx
            interval_cases x <;> rfl
        refine (canonicalDigits_cons fun h => hd ?_).mpr hall
        have := congrArg UInt8.toNat h
        rw [toNat_digit (hlt d mem_cons_self)] at this
        exact Nat.add_left_cancel this

theorem decimalNat_canonical (n : ℕ) : canonicalDigits false (decimalNat n) :=
  canonicalDigits_iff.mpr ⟨by rw [digitsValue_decimalNat], nofun⟩

theorem eq_decimal_of_parseRedisBytes {raw : Bytes} {n : ℤ} (h : parseRedisBytes raw = some n) :
    inI64 n ∧ raw = decimal n := by
  simp only [parseRedisBytes, Option.ite_none_right_eq_some, Option.some.injEq,
    canonicalDigits_iff, decide_eq_true_eq] at h
  obtain ⟨⟨hds, hzero⟩, hin, hn⟩ := h
  rw [hn] at hin
  refine ⟨hin, ?_⟩
  by_cases hsign : raw.head? = some 45
  · obtain ⟨ds, rfl⟩ := head?_eq_some_iff.mp hsign
    simp only [head?_cons, if_true, tail_cons] at hds hzero hn
    have hne := hzero trivial
    rw [decimal, if_pos (by omega), ← hn, Int.natAbs_neg, Int.natAbs_natCast, hds]
  · simp only [if_neg hsign] at hds hn
    rw [decimal, if_neg (by omega), ← hn, Int.natAbs_natCast, hds]

/-- **An integer is read off exactly its decimal rendering.** -/
theorem parse_redis_i64_iff (raw : Bytes) (n : ℤ) :
    parseRedisBytes raw = some n ↔ inI64 n ∧ raw = decimal n := by
  refine ⟨eq_decimal_of_parseRedisBytes, ?_⟩
  rintro ⟨hin, rfl⟩
  unfold decimal
  split
  · next hneg =>
    have hds : canonicalDigits true (decimalNat n.natAbs) :=
      canonicalDigits_iff.mpr ⟨by rw [digitsValue_decimalNat],
        fun _ => by rw [digitsValue_decimalNat]; omega⟩
    have hn : -(n.natAbs : ℤ) = n := by omega
    simp only [parseRedisBytes, head?_cons, tail_cons, if_true, decide_true, hds,
      digitsValue_decimalNat, hn, hin]
  · next hpos =>
    have hplain : (decimalNat n.natAbs).head? ≠ some 45 := fun h => by
      obtain ⟨ds, hds⟩ := head?_eq_some_iff.mp h
      exact absurd (hds ▸ decimalNat_canonical n.natAbs) (by simp [canonicalDigits])
    have hplain' : decide ((decimalNat n.natAbs).head? = some 45) = false := decide_eq_false hplain
    have hn : (n.natAbs : ℤ) = n := by omega
    simp only [parseRedisBytes, if_neg hplain, hplain', decimalNat_canonical,
        digitsValue_decimalNat,
      hn, hin, if_true]

theorem parseRedisBytes_of_long {raw : Bytes} (h : 20 < raw.length) :
    parseRedisBytes raw = none := by
  refine Option.eq_none_iff_forall_ne_some.mpr fun n hn => ?_
  obtain ⟨hin, rfl⟩ := eq_decimal_of_parseRedisBytes hn
  exact absurd (length_decimal hin) (not_le.mpr h)

/-! ## Commands -/

namespace StringSim

def Agree (cfg : StringConfig) {ρ : Type} (a b : ρ × StringRows κ) : Prop :=
  a.1 = b.1 ∧ StringSim cfg a.2 b.2

omit [DecidableEq κ] in
theorem Agree.ite {ρ : Type} {a a' b b' : ρ × StringRows κ} {p : Prop} [Decidable p]
    (hpos : p → Agree cfg a b) (hneg : ¬p → Agree cfg a' b') :
    Agree cfg (if p then a else a') (if p then b else b') := by
  by_cases hp : p
  · rw [if_pos hp, if_pos hp]
    exact hpos hp
  · rw [if_neg hp, if_neg hp]
    exact hneg hp

omit [DecidableEq κ] in
theorem Agree.limit {ρ : Type} {a a' b b' : ρ × StringRows κ} (hover : Agree cfg a b)
    (hunder : n ≤ cfg.maxValueBytes → Agree cfg a' b') :
    Agree cfg (if cfg.maxValueBytes < n then a else a')
      (if cfg.never.maxValueBytes < n then b else b') :=
  Agree.ite (p := cfg.maxValueBytes < n) (fun _ => hover) fun hle => hunder (not_lt.mp hle)

variable (h : StringSim cfg st pl) (clk : StringClock) (k : κ)

include h

theorem read (now : ℕ) : ∃ a b st' pl', st.readLive k now = (a, st') ∧
    pl.readLive k now = (b, pl') ∧ StringSim cfg st' pl' ∧
        StringMetaRel cfg (st'.chunks k) st'.last a b := by
  obtain ⟨hsim, hrel, -, -⟩ := h.readLive k now
  exact ⟨_, _, _, _, rfl, rfl, hsim, hrel⟩

/-- **A live read finds the key in both stores or in neither.** -/
@[elab_as_elim]
theorem onLive {motive : Option Stored × StringRows κ →
    Option Stored × StringRows κ → Prop} (now : ℕ)
    (hnone : ∀ st' pl', StringSim cfg st' pl' → motive (none, st') (none, pl'))
    (hsome : ∀ st' pl' s s', StringSim cfg st' pl' →
      StringMetaRel cfg (st'.chunks k) st'.last (some s) (some s') →
          motive (some s, st') (some s', pl')) :
    motive (st.readLive k now) (pl.readLive k now) := by
  obtain ⟨a, b, st', pl', hst, hpl, hsim, hrel⟩ := h.read k now
  rw [hst, hpl]
  cases a with
  | none =>
    cases hrel
    exact hnone st' pl' hsim
  | some s =>
    cases b with
    | none => cases hrel
    | some s' => exact hsome st' pl' s s' hsim hrel

theorem onTarget (need now mint : ℕ) : ∃ t w st' pl', st.target cfg k need now mint = (t, st') ∧
      pl.target cfg.never k need now mint = (.inline w, pl') ∧ StringSim cfg st' pl' ∧
      StringWorking cfg st' pl' k need t w := by
  obtain ⟨w, hw, hsim, hworking⟩ := h.target k need now mint
  exact ⟨_, w, _, _, rfl, Prod.ext hw rfl, hsim, hworking⟩

theorem get : Agree cfg (st.get cfg clk k) (pl.get cfg.never clk k) := by
  unfold StringRows.get
  refine h.onLive k (clk.live 0) (fun _ _ hsim => ⟨rfl, hsim⟩) fun st' pl' s s' hsim hrel => ?_
  refine ⟨?_, hsim⟩
  exact congrArg (fun v => value (some v)) hrel.valueOf

theorem strlen : Agree cfg (st.strlen clk k) (pl.strlen clk k) := by
  obtain ⟨a, b, st', pl', hst, hpl, hsim, hrel⟩ := h.read k (clk.live 0)
  unfold StringRows.strlen
  rw [hst, hpl]
  exact ⟨congrArg len hrel.elim_len, hsim⟩

theorem getrange (start stop : ℤ) :
    Agree cfg (st.getrange cfg clk k start stop) (pl.getrange cfg.never clk k start stop) := by
  unfold StringRows.getrange
  refine h.onLive k (clk.live 0) (fun _ _ hsim => ⟨rfl, hsim⟩) fun st' pl' s s' hsim hrel => ?_
  dsimp only
  rw [Option.some.inj hrel.len_eq]
  refine Agree.ite (fun _ => ⟨rfl, hsim⟩) fun _ => Agree.ite (fun _ => ⟨rfl, hsim⟩) fun _ => ?_
  exact ⟨congrArg bytes (congrFun₂ hrel.window _ _), hsim⟩

theorem getbit (offset : ℕ) :
    Agree cfg (st.getbit cfg clk k offset) (pl.getbit cfg.never clk k offset) := by
  unfold StringRows.getbit
  refine h.onLive k (clk.live 0) (fun _ _ hsim => ⟨rfl, hsim⟩) fun st' pl' s s' hsim hrel => ?_
  refine ⟨?_, hsim⟩
  exact congrArg (fun l : Bytes => flag (decide (l.getD 0 0 &&& bitMask offset ≠ 0)))
    (congrFun₂ hrel.window _ _)

theorem bitcount (range : Option (ℤ × ℤ × Bool)) :
    Agree cfg (st.bitcount cfg clk k range) (pl.bitcount cfg.never clk k range) := by
  unfold StringRows.bitcount
  refine h.onLive k (clk.live 0) (fun _ _ hsim => ⟨rfl, hsim⟩) fun st' pl' s s' hsim hrel => ?_
  refine ⟨?_, hsim⟩
  have hwindow : st'.window cfg k s = pl'.window cfg.never k s' := hrel.window
  dsimp only [Option.elim_some]
  rw [hwindow, Option.some.inj hrel.len_eq]

theorem bitpos (bit : Bool) (range : Option (ℤ × Option ℤ × Bool)) :
    Agree cfg (st.bitpos cfg clk k bit range) (pl.bitpos cfg.never clk k bit range) := by
  unfold StringRows.bitpos
  refine h.onLive k (clk.live 0) (fun _ _ hsim => ⟨rfl, hsim⟩) fun st' pl' s s' hsim hrel => ?_
  refine ⟨?_, hsim⟩
  have hwindow : st'.window cfg k s = pl'.window cfg.never k s' := hrel.window
  dsimp only [Option.elim_some]
  rw [hwindow, Option.some.inj hrel.len_eq]

section

variable (hcap : cfg.maxValueBytes ≤ chunkLimit * cfg.chunk)
include hcap

theorem set (v : Bytes) (opts : SetOptions) :
    Agree cfg (st.set cfg clk k v opts) (pl.set cfg.never clk k v opts) := by
  have hput {a b : Option Stored} {st pl : StringRows κ} {e e' : ℕ} (hsim : StringSim cfg st pl)
      (hsome : a.isSome = b.isSome) (hexpire : e = e')
      (hv : v.length ≤ chunkLimit * cfg.chunk) :
      Agree cfg
        (if (opts.nx && a.isSome) || (opts.xx && a.isNone) then (StringReply.set false, st)
          else (.set true, st.putValue cfg k v e clk.mint))
        (if (opts.nx && b.isSome) || (opts.xx && b.isNone) then (StringReply.set false, pl)
          else (.set true, pl.putValue cfg.never k v e' clk.mint)) := by
    have hnone : a.isNone = b.isNone := by rw [← Option.not_isSome, ← Option.not_isSome, hsome]
    rw [hsome, hnone, hexpire]
    split
    · exact ⟨rfl, hsim⟩
    · exact ⟨rfl, hsim.putValue k hv _ _⟩
  refine Agree.limit ⟨rfl, h⟩ fun hle => ?_
  obtain ⟨a, b, st', pl', hst, hpl, hsim, hrel⟩ := h.read k (clk.live 0)
  rw [hst, hpl]
  generalize (opts.nx || opts.xx || _ : Bool) = needs
  cases needs with
  | true => exact hput hsim hrel.isSome_eq (by rw [hrel.expire_eq]) (hle.trans hcap)
  | false => exact hput (a := none) (b := none) h rfl rfl (hle.trans hcap)

theorem append (suffix : Bytes) :
    Agree cfg (st.append cfg clk k suffix) (pl.append cfg.never clk k suffix) := by
  obtain ⟨a, b, st', pl', hst, hpl, hsim, hrel⟩ := h.read k (clk.live 0)
  unfold StringRows.append
  rw [hst, hpl]
  dsimp only
  rw [hrel.elim_len]
  refine Agree.limit ⟨rfl, hsim⟩ fun hle => ?_
  obtain ⟨t, w, st₁, pl₁, hst₁, hpl₁, hsim₁, hworking⟩ :=
    hsim.onTarget k (b.elim 0 Stored.len + suffix.length) (clk.live 1) clk.mint
  rw [hst₁, hpl₁]
  obtain ⟨hwrite, hneed⟩ := hworking.write (hle.trans hcap)
  exact ⟨rfl, hsim₁.finish hwrite hneed⟩

theorem setrange (offset : ℕ) (patch : Bytes) :
    Agree cfg (st.setrange cfg clk k offset patch) (pl.setrange cfg.never clk k offset patch) := by
  unfold StringRows.setrange
  split
  · exact h.strlen clk k
  refine Agree.limit ⟨rfl, (h.readLive k (clk.live 0)).1⟩ fun hle => ?_
  obtain ⟨t, w, st', pl', hst, hpl, hsim, hworking⟩ :=
    h.onTarget k (offset + patch.length) (clk.live 0) clk.mint
  rw [hst, hpl]
  obtain ⟨hwrite, hneed⟩ := hworking.write (hle.trans hcap)
  exact ⟨congrArg len hwrite.len, hsim.finish hwrite hneed⟩

theorem setbit (offset : ℕ) (on : Bool) :
    Agree cfg (st.setbit cfg clk k offset on) (pl.setbit cfg.never clk k offset on) := by
  unfold StringRows.setbit
  refine Agree.limit ⟨rfl, (h.readLive k (clk.live 0)).1⟩ fun hle => ?_
  have hroom : offset / 8 + 1 ≤ chunkLimit * cfg.chunk := hle.trans hcap
  obtain ⟨t, w, st', pl', hst, hpl, hsim, hworking⟩ :=
    h.onTarget k (offset / 8 + 1) (clk.live 0) clk.mint
  rw [hst, hpl]
  obtain ⟨hgrow, hneed⟩ := hworking.grow hroom
  have hplain : (StringTarget.inline w).grow (offset / 8 + 1) =
      .inline (w.grow (offset / 8 + 1)) := rfl
  dsimp only
  rw [hgrow.byte (offset / 8), hplain]
  refine ⟨rfl, ?_⟩
  split
  · obtain ⟨hset, hlen⟩ := hgrow.setByte hroom
      ((StringTarget.inline (w.grow (offset / 8 + 1))).byte cfg.never
          (offset / 8) ^^^ bitMask offset)
    exact hsim.finish hset (hneed.trans hlen)
  · exact hsim.finish hgrow hneed

theorem bitfield (ops : List BitfieldOp) :
    Agree cfg (st.bitfield cfg clk k ops) (pl.bitfield cfg.never clk k ops) := by
  unfold StringRows.bitfield
  split
  · refine h.onLive k (clk.live 0) (fun _ _ hsim => ⟨rfl, hsim⟩) fun st' pl' s s' hsim hrel => ?_
    have hbyte : (st'.readTarget k s).byte cfg = (pl'.readTarget k s').byte cfg.never := by
      cases hrel with
      | inline room => rfl
      | chunked held minted long =>
        exact funext fun i => (holds_of_rowsOf cfg.chunk_pos held false).get i
    dsimp only
    rw [hbyte]
    exact ⟨rfl, hsim⟩
  · next highest hmax =>
    refine Agree.limit ⟨rfl, (h.readLive k (clk.live 0)).1⟩ fun hle => ?_
    have hroom : highest / 8 + 1 ≤ chunkLimit * cfg.chunk := hle.trans hcap
    obtain ⟨t, w, st', pl', hst, hpl, hsim, hworking⟩ :=
      h.onTarget k (highest / 8 + 1) (clk.live 0) clk.mint
    rw [hst, hpl]
    obtain ⟨hgrow, hneed⟩ := hworking.grow hroom
    obtain ⟨w', hw', hworking', hle'⟩ := hgrow.bitfieldOps fun op hop hget i hi => by
      have hmem : op.offset + op.bits - 1 ∈
          (ops.filter fun op => !op.isGet).map fun op => op.offset + op.bits - 1 :=
        mem_map_of_mem (mem_filter.mpr ⟨hop, by rw [hget]; rfl⟩)
      have hbound := (max?_eq_some_iff.mp hmax).2 _ hmem
      have hlt : (op.offset + i) / 8 ≤ highest / 8 := Nat.div_le_div_right (by omega)
      omega
    have hplain : (StringTarget.inline w).grow (highest / 8 + 1) =
        .inline (w.grow (highest / 8 + 1)) := rfl
    dsimp only
    rw [hplain, hw']
    exact ⟨rfl, hsim.finish hworking' (hneed.trans hle')⟩

end

theorem getDel : Agree cfg (st.getDel cfg clk k) (pl.getDel cfg.never clk k) := by
  unfold StringRows.getDel
  refine h.onLive k (clk.live 0) (fun _ _ hsim => ⟨rfl, hsim⟩) fun st' pl' s s' hsim hrel => ?_
  exact ⟨congrArg (fun v => value (some v)) hrel.valueOf, hsim.setMeta k .none⟩

theorem getex (expiry : SetExpiry) :
    Agree cfg (st.getex cfg clk k expiry) (pl.getex cfg.never clk k expiry) := by
  unfold StringRows.getex
  refine h.onLive k (clk.live 0) (fun _ _ hsim => ⟨rfl, hsim⟩) fun st' pl' s s' hsim hrel => ?_
  have hvalue : st'.valueOf cfg k s = pl'.valueOf cfg.never k s' := hrel.valueOf
  have hrewrite (e : ℕ) : StringSim cfg
      (if e ≠ s.expireMs then st'.setMeta k (some (s.withExpire e)) else st')
      (if e ≠ s'.expireMs then pl'.setMeta k (some (s'.withExpire e)) else pl') := by
    rw [Option.some.inj hrel.expire_eq]
    split
    · exact hsim.setMeta k (hrel.withExpire e)
    · exact hsim
  cases expiry with
  | keep => exact ⟨congrArg (fun v => value (some v)) hvalue, hsim⟩
  | atMs ms => exact ⟨congrArg (fun v => value (some v)) hvalue, hrewrite ms⟩
  | clear => exact ⟨congrArg (fun v => value (some v)) hvalue, hrewrite 0⟩

theorem del (i : ℕ) : Agree cfg (st.del clk k i) (pl.del clk k i) := by
  obtain ⟨a, b, st', pl', hst, hpl, hsim, hrel⟩ := h.read k (clk.live i)
  unfold StringRows.del
  rw [hst, hpl]
  dsimp only
  rw [hrel.isSome_eq]
  exact Agree.ite (fun _ => ⟨rfl, hsim.setMeta k .none⟩) fun _ => ⟨rfl, hsim⟩

theorem copy (src dst : κ) (replace : Bool) (i : ℕ) :
    Agree cfg (st.copy clk src dst replace i) (pl.copy clk src dst replace i) := by
  unfold StringRows.copy
  refine h.onLive src (clk.live i) (fun _ _ hsim => ⟨rfl, hsim⟩) fun st' pl' s s' hsim hrel => ?_
  dsimp only
  obtain ⟨d, d', st₁, pl₁, hst₁, hpl₁, hsim₁, hrel₁⟩ := hsim.read dst (clk.live (i + 1))
  have hframe := readLive_frame st' dst (clk.live (i + 1))
  rw [hst₁] at hframe ⊢
  rw [hpl₁]
  rw [hrel₁.isSome_eq]
  refine Agree.ite (fun _ => ⟨rfl, hsim₁⟩) fun _ => ?_
  have hclear : StringSim cfg (if d'.isSome then st₁.setMeta dst none else st₁)
      (if d'.isSome then pl₁.setMeta dst none else pl₁) := by
    split
    · exact hsim₁.setMeta dst .none
    · exact hsim₁
  have hcleared : (if d'.isSome then st₁.setMeta dst none else st₁).chunks = st'.chunks := by
    rw [← hframe.1]
    split
    · rfl
    · rfl
  generalize (if d'.isSome then st₁.setMeta dst none else st₁) = st₂ at hclear hcleared
  generalize (if d'.isSome then pl₁.setMeta dst none else pl₁) = pl₂ at hclear
  cases hrel with
  | inline room => exact ⟨rfl, hclear.setMeta dst (.inline room)⟩
  | @chunked v e p held minted long =>
    refine ⟨rfl, (hclear.setChunks_of_lt clk.mint dst _).setMeta dst
      (.chunked ?_ le_rfl long)⟩
    rw [chunks_setChunks_self, hclear.fresh dst _ (last_lt_nextVersion st₂ clk.mint),
      SortedRows.putAll_empty, hcleared]
    exact held

theorem rename (src dst : κ) (nx : Bool) :
    Agree cfg (st.rename clk src dst nx) (pl.rename clk src dst nx) := by
  have hmove {st pl : StringRows κ} (h : StringSim cfg st pl) : Agree cfg
      (if (st.copy clk src dst true 2).1 then (RenameOutcome.renamed,
        ((st.copy clk src dst true 2).2.del clk src 4).2)
        else (.noSuchKey, (st.copy clk src dst true 2).2))
      (if (pl.copy clk src dst true 2).1 then (RenameOutcome.renamed,
        ((pl.copy clk src dst true 2).2.del clk src 4).2)
        else (.noSuchKey, (pl.copy clk src dst true 2).2)) := by
    obtain ⟨hflag, hcopied⟩ := h.copy clk src dst true 2
    rw [hflag]
    exact Agree.ite (fun _ => ⟨rfl, (hcopied.del clk src 4).2⟩) fun _ => ⟨rfl, hcopied⟩
  obtain ⟨a, b, st', pl', hst, hpl, hsim, hrel⟩ := h.read src (clk.live 0)
  have hnone : a.isNone = b.isNone := by
    rw [← Option.not_isSome, ← Option.not_isSome, hrel.isSome_eq]
  unfold StringRows.rename
  rw [hst, hpl]
  dsimp only
  rw [hnone]
  refine Agree.ite (fun _ => ⟨rfl, hsim⟩) fun _ => Agree.ite (fun _ => ⟨rfl, hsim⟩) fun _ => ?_
  cases nx with
  | false => exact hmove hsim
  | true =>
    obtain ⟨d, d', st₁, pl₁, hst₁, hpl₁, hsim₁, hrel₁⟩ := hsim.read dst (clk.live 1)
    rw [if_pos rfl, if_pos rfl, hst₁, hpl₁]
    rw [hrel₁.isSome_eq]
    exact Agree.ite (fun _ => ⟨rfl, hsim₁⟩) fun _ => hmove hsim₁

theorem expireAt (ms : ℕ) : Agree cfg (st.expireAt clk k ms) (pl.expireAt clk k ms) := by
  unfold StringRows.expireAt
  refine h.onLive k (clk.live 0) (fun _ _ hsim => ⟨rfl, hsim⟩) fun st' pl' s s' hsim hrel => ?_
  exact Agree.ite (fun _ => ⟨rfl, hsim.setMeta k .none⟩) fun _ =>
    ⟨rfl, hsim.setMeta k (hrel.withExpire ms)⟩

theorem expireTime : Agree cfg (st.expireTime clk k) (pl.expireTime clk k) := by
  obtain ⟨a, b, st', pl', hst, hpl, hsim, hrel⟩ := h.read k (clk.live 0)
  unfold StringRows.expireTime
  rw [hst, hpl]
  exact ⟨congrArg StringReply.expireTime hrel.expire_eq, hsim⟩

theorem persist : Agree cfg (st.persist clk k) (pl.persist clk k) := by
  unfold StringRows.persist
  refine h.onLive k (clk.live 0) (fun _ _ hsim => ⟨rfl, hsim⟩) fun st' pl' s s' hsim hrel => ?_
  dsimp only
  rw [Option.some.inj hrel.expire_eq]
  exact Agree.ite (fun _ => ⟨rfl, hsim⟩) fun _ => ⟨rfl, hsim.setMeta k (hrel.withExpire 0)⟩

section

variable (hinline : 20 ≤ cfg.inlineMax)
include hinline

theorem incrBy (delta : ℤ) : Agree cfg (st.incrBy clk k delta) (pl.incrBy clk k delta) := by
  have hroom {n : ℤ} (hn : inI64 n) : (decimal n).length ≤ chunkLimit * cfg.chunk := by
    have hpos := mul_le_mul_left chunkLimit (one_le_of_lt cfg.chunk_pos)
    have hlimit : 20 ≤ chunkLimit := by
      unfold chunkLimit
      norm_num
    have hlen := length_decimal hn
    omega
  obtain ⟨a, b, st', pl', hst, hpl, hsim, hrel⟩ := h.read k (clk.live 0)
  have hwrite (n : ℤ) (e : ℕ) : Agree cfg
      (if inI64 (n + delta) then
        (StringReply.int (n + delta), st'.setMeta k (some (.inline (decimal (n + delta)) e)))
      else (StringReply.error .overflow, st'))
      (if inI64 (n + delta) then
        (StringReply.int (n + delta), pl'.setMeta k (some (.inline (decimal (n + delta)) e)))
      else (StringReply.error .overflow, pl')) :=
    Agree.ite (fun hin => ⟨rfl, hsim.setMeta k (.inline (hroom hin))⟩) fun _ => ⟨rfl, hsim⟩
  unfold StringRows.incrBy
  rw [hst, hpl]
  cases hrel with
  | none => exact hwrite 0 0
  | @inline p e room =>
    dsimp only
    cases parseRedisBytes p with
    | none => exact ⟨rfl, hsim⟩
    | some n => exact hwrite n e
  | @chunked v e p held minted long =>
    have hnone := parseRedisBytes_of_long (hinline.trans_lt long)
    dsimp only
    rw [hnone]
    exact ⟨rfl, hsim⟩

theorem step (hcap : cfg.maxValueBytes ≤ chunkLimit * cfg.chunk) (op : StringOp κ) :
    Agree cfg (st.step cfg clk op) (pl.step cfg.never clk op) := by
  cases op with
  | set k v opts => exact h.set clk k hcap v opts
  | get k => exact h.get clk k
  | append k suffix => exact h.append clk k hcap suffix
  | strlen k => exact h.strlen clk k
  | getrange k start stop => exact h.getrange clk k start stop
  | setrange k offset patch => exact h.setrange clk k hcap offset patch
  | setbit k offset on => exact h.setbit clk k hcap offset on
  | getbit k offset => exact h.getbit clk k offset
  | bitcount k range => exact h.bitcount clk k range
  | bitpos k bit range => exact h.bitpos clk k bit range
  | bitfield k ops => exact h.bitfield clk k hcap ops
  | getDel k => exact h.getDel clk k
  | getex k expiry => exact h.getex clk k expiry
  | incrBy k delta => exact h.incrBy clk k hinline delta
  | copy src dst replace =>
    exact (h.copy clk src dst replace 0).imp_left fun heq => congrArg flag heq
  | rename src dst nx =>
    exact (h.rename clk src dst nx).imp_left fun heq => congrArg StringReply.rename heq
  | expireAt k ms => exact h.expireAt clk k ms
  | expireTime k => exact h.expireTime clk k
  | persist k => exact h.persist clk k
  | del k => exact (h.del clk k 0).imp_left fun heq => congrArg flag heq

theorem run
    (hcap : cfg.maxValueBytes ≤ chunkLimit * cfg.chunk) (ops : List (StringClock × StringOp κ)) :
    Agree cfg (run cfg st ops) (run cfg.never pl ops) := by
  induction ops generalizing st pl with
  | nil => exact ⟨rfl, h⟩
  | cons op ops ih =>
    obtain ⟨clk, op⟩ := op
    obtain ⟨hreply, hsim⟩ := h.step clk hinline hcap op
    obtain ⟨hreplies, hlast⟩ := ih hsim
    exact ⟨congrArg₂ cons hreply hreplies, hlast⟩

end

theorem readable (now : ℕ) (k : κ) : st.readable cfg now k = pl.readable cfg.never now k := by
  unfold StringRows.readable
  refine h.onLive k now (fun _ _ _ => rfl) fun st' pl' s s' hsim hrel => ?_
  exact congrArg some (Prod.ext hrel.valueOf (Option.some.inj hrel.expire_eq))

omit h in
omit [DecidableEq κ] in
theorem fresh_rows : StringSim cfg (StringRows.fresh : StringRows κ) .fresh :=
  ⟨fun _ => .none, fun _ _ _ => rfl⟩

end StringSim

/-- **Chunked strings answer as inline ones do**: in every run from an empty store, every reply is
that of a store that never chunks, and so are the value and the expiry found at any key. -/
theorem chunked_refines (cfg : StringConfig) (hinline : 20 ≤ cfg.inlineMax)
    (hcap : cfg.maxValueBytes ≤ chunkLimit * cfg.chunk) (ops : List (StringClock × StringOp κ)) :
    (StringRows.run cfg .fresh ops).1 = (StringRows.run cfg.never .fresh ops).1 ∧
      ∀ now k, (StringRows.run cfg .fresh ops).2.readable cfg now k =
        (StringRows.run cfg.never .fresh ops).2.readable cfg.never now k := by
  obtain ⟨hreplies, hsim⟩ := StringSim.fresh_rows.run hinline hcap ops
  exact ⟨hreplies, hsim.readable⟩

def bitmapConfig : StringConfig := ⟨2 ^ 29, true, 20, 8, by decide⟩

theorem chunked_refines_bitmap :
    (StringRows.run bitmapConfig (.fresh : StringRows ℕ)
        [(⟨fun _ => 0, 0⟩, .setbit 0 199 true)]).2.metas 0 = some (.chunked 1 25 0) ∧
      ∀ now k, (StringRows.run bitmapConfig .fresh
          [(⟨fun _ => 0, 0⟩, .setbit 0 199 true)]).2.readable bitmapConfig now k =
        (StringRows.run bitmapConfig.never (.fresh : StringRows ℕ)
          [(⟨fun _ => 0, 0⟩, .setbit 0 199 true)]).2.readable bitmapConfig.never now k :=
  ⟨rfl, (chunked_refines bitmapConfig (by decide) (by decide) _).2⟩

end Flint
