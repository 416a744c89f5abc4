import Dockv6.Log.Basic

/-!
# Crash atomicity of the log

At every moment copying the log's data blocks to the places its header names gives the home contents
after some prefix of the transactions (`Recovers`). The prefix has every transaction whose first
`write_head` reached the disk, and the last one only if it is one of these (`Covers`). Each block
write keeps this.
-/

namespace Dockv6.Log

open Function

variable {L : Layout}

namespace Layout

theorem home_ne_start {b : ℕ} (h : L.home b) : b ≠ L.start := by
  have := L.size_pos
  unfold home at h
  omega

theorem home_ne_data {b i : ℕ} (h : L.home b) (hi : i + 1 < L.size) : b ≠ L.data i := by
  unfold home at h
  unfold data
  omega

theorem data_ne_start (i : ℕ) : L.data i ≠ L.start := by
  unfold data
  omega

theorem data_inj {i j : ℕ} : L.data i = L.data j ↔ i = j := by
  unfold data
  omega

end Layout

/-! ## Disks that recover to given contents -/

/-- Copying the log's blocks to the places the header names gives `target`. -/
structure Recovers (L : Layout) (d target : Disk) : Prop where
  room : (readHead (d L.start)).length < L.size
  named_home : ∀ b ∈ readHead (d L.start), L.home b
  logged : ∀ i b, (readHead (d L.start))[i]? = some b → d (L.data i) = target b
  rest : ∀ b, L.home b → b ∉ readHead (d L.start) → d b = target b

variable {d target : Disk}

/-- With an empty header the home blocks hold the contents. -/
theorem recovers_of_clean (hc : readHead (d L.start) = []) (h : ∀ b, L.home b → d b = target b) :
    Recovers L d target where
  room := by rw [hc]; exact L.size_pos
  named_home := by simp [hc]
  logged := by simp [hc]
  rest b hb _ := h b hb

/-- A round of `install_trans` keeps what the disk recovers to. -/
theorem Recovers.install (h : Recovers L d target) {i b : ℕ}
    (hb : (readHead (d L.start))[i]? = some b) :
    Recovers L (update d b (d (L.data i))) target := by
  have hhome : L.home b := h.named_home b (List.mem_of_getElem? hb)
  have hstart : update d b (d (L.data i)) L.start = d L.start :=
    update_of_ne (Layout.home_ne_start hhome).symm _ _
  refine ⟨?_, ?_, ?_, ?_⟩
  · rw [hstart]; exact h.room
  · rw [hstart]; exact h.named_home
  · intro j c hc
    rw [hstart] at hc
    have hj : j + 1 < L.size := by
      have := (List.getElem?_eq_some_iff.1 hc).1
      have := h.room
      omega
    rw [update_of_ne (Layout.home_ne_data hhome hj).symm]
    exact h.logged j c hc
  · intro c hc hn
    rw [hstart] at hn
    have hcb : c ≠ b := fun e => hn (e ▸ List.mem_of_getElem? hb)
    rw [update_of_ne hcb]
    exact h.rest c hc hn

/-- The rounds before `tail` have been made. -/
def Installed (L : Layout) (d target : Disk) (tail : ℕ) : Prop :=
  ∀ i b, i < tail → (readHead (d L.start))[i]? = some b → d b = target b

theorem Installed.install (h : Recovers L d target) {i b : ℕ} (hi : Installed L d target i)
    (hb : (readHead (d L.start))[i]? = some b) :
    Installed L (update d b (d (L.data i))) target (i + 1) := by
  have hhome : L.home b := h.named_home b (List.mem_of_getElem? hb)
  intro j c hj hc
  rw [update_of_ne (Layout.home_ne_start hhome).symm] at hc
  by_cases hcb : c = b
  · rw [hcb, update_self, h.logged i b hb]
  · rw [update_of_ne hcb]
    rcases Nat.lt_succ_iff_lt_or_eq.1 hj with hj | rfl
    · exact hi j c hj hc
    · exact absurd (Option.some.inj (hc.symm.trans hb)) hcb

/-- After the last round the home blocks hold the contents. -/
theorem Recovers.home_eq (h : Recovers L d target) {tail : ℕ} (hi : Installed L d target tail)
    (ht : (readHead (d L.start)).length ≤ tail) {b : ℕ} (hb : L.home b) : d b = target b := by
  by_cases hm : b ∈ readHead (d L.start)
  · obtain ⟨i, hlt, hib⟩ := List.getElem_of_mem hm
    exact hi i b (hlt.trans_le ht) (by rw [List.getElem?_eq_getElem hlt, hib])
  · exact h.rest b hb hm

/-! ## The invariant -/

/-- The home contents after the first `k` transactions. -/
def State.after (s : State) (k : ℕ) : Disk := Store.run s.base (s.txs.take k)

theorem State.after_old (s : State) : s.after s.old.length = Store.run s.base s.old := by
  simp [after, txs]

theorem State.after_txs (s : State) : s.after s.txs.length = Store.run s.base s.txs := by
  simp [after]

/-- `k` transactions are a prefix that has every transaction whose `write_head` reached the disk,
and nothing of a transaction that is still recorded or copied to the log. -/
structure Covers (s : State) (k : ℕ) : Prop where
  le : k ≤ s.txs.length
  heads : ∀ i ∈ s.heads, i < k
  last : s.old.length < k → s.old.length ∈ s.heads

/-- While a transaction is recorded or copied to the log: the header is empty, the disk has the
contents without it, the cache the contents with it. -/
structure Recording (L : Layout) (s : State) : Prop where
  heads : ∀ i ∈ s.heads, i < s.old.length
  clean : readHead (s.disk L.start) = []
  disk_home : ∀ b, L.home b → s.disk b = Store.run s.base s.old b
  cache_home : ∀ b, L.home b → s.cache b = Store.run s.base s.txs b
  unlogged : ∀ b, L.home b → b ∉ s.lh → s.cache b = s.disk b
  lh_home : ∀ b ∈ s.lh, L.home b
  lh_le : s.lh.length ≤ LOGSIZE
  lh_room : s.lh.length < L.size

/-- The rounds of `write_log` before `tail` have been made. -/
def Copied (L : Layout) (s : State) (tail : ℕ) : Prop :=
  ∀ i b, i < tail → s.lh[i]? = some b →
    s.disk (L.data i) = s.cache b ∧ s.cache (L.data i) = s.cache b

/-- After the commit point: the disk recovers to the contents with the transaction. -/
structure Installing (L : Layout) (s : State) (tail : ℕ) : Prop where
  heads : ∀ i ∈ s.heads, i < s.txs.length
  last : s.old.length ∈ s.heads
  head : readHead (s.disk L.start) = s.lh
  recovers : Recovers L s.disk (Store.run s.base s.txs)
  installed : Installed L s.disk (Store.run s.base s.txs) tail
  cache_log : ∀ i < s.lh.length, s.cache (L.data i) = s.disk (L.data i)
  cache_home : ∀ b, L.home b → s.cache b = Store.run s.base s.txs b

/-- In the recovery the cache is the disk. -/
structure Recovering (L : Layout) (s : State) (tail : ℕ) : Prop where
  cache : s.cache = s.disk
  head : readHead (s.disk L.start) = s.lh
  recovers : ∃ k, Covers s k ∧ Recovers L s.disk (s.after k) ∧ Installed L s.disk (s.after k) tail

/-- What holds at each point. -/
def Inv (L : Layout) (s : State) : Prop :=
  match s.pc with
  | .boot => s.cache = s.disk ∧ ∃ k, Covers s k ∧ Recovers L s.disk (s.after k)
  | .recover tail => Recovering L s tail
  | .ready =>
    s.cache = s.disk ∧ s.lh = [] ∧ readHead (s.disk L.start) = [] ∧
      ∃ k, Covers s k ∧ ∀ b, L.home b → s.disk b = s.after k b
  | .recording => Recording L s
  | .writeLog tail => Recording L s ∧ Copied L s tail
  | .install tail => Installing L s tail
  | .panicked => ∃ k, Covers s k ∧ Recovers L s.disk (s.after k)

variable {s : State}

theorem Recording.safe (h : Recording L s) : ∃ k, Covers s k ∧ Recovers L s.disk (s.after k) := by
  refine ⟨s.old.length, ⟨by simp [State.txs], h.heads, fun hlt => absurd hlt (lt_irrefl _)⟩, ?_⟩
  rw [s.after_old]
  exact recovers_of_clean h.clean h.disk_home

theorem Installing.safe {tail : ℕ} (h : Installing L s tail) :
    ∃ k, Covers s k ∧ Recovers L s.disk (s.after k) := by
  refine ⟨s.txs.length, ⟨le_rfl, h.heads, fun _ => h.last⟩, ?_⟩
  rw [s.after_txs]
  exact h.recovers

/-- Whatever the log code is doing, the disk recovers to a prefix. -/
theorem Inv.safe (h : Inv L s) : ∃ k, Covers s k ∧ Recovers L s.disk (s.after k) := by
  unfold Inv at h
  split at h
  · exact h.2
  · obtain ⟨k, hk, hr, -⟩ := h.recovers
    exact ⟨k, hk, hr⟩
  · obtain ⟨-, -, hc, k, hk, hd⟩ := h
    exact ⟨k, hk, recovers_of_clean hc hd⟩
  · exact h.safe
  · exact h.1.safe
  · exact h.safe
  · exact h

/-! ## Steps -/

/-- `write_head` of an empty header on a disk whose home blocks hold the contents. -/
theorem readHead_putHead {lh : List ℕ} (h : lh.length ≤ LOGSIZE) :
    readHead ((s.putHead L lh).disk L.start) = lh := by
  simp [State.putHead, State.bwrite, readHead_writeHead _ h]

theorem putHead_disk_of_ne {lh : List ℕ} {b : ℕ} (h : b ≠ L.start) :
    (s.putHead L lh).disk b = s.disk b := update_of_ne h _ _

theorem putHead_cache_of_ne {lh : List ℕ} {b : ℕ} (h : b ≠ L.start) :
    (s.putHead L lh).cache b = s.cache b := update_of_ne h _ _

theorem Recording.logWrite (h : Recording L s) (hpc : s.pc = .recording) {b : ℕ} (hb : L.home b)
    (v : Block) : Inv L (logWrite L s b v) := by
  unfold Log.logWrite
  split
  · obtain ⟨k, ⟨hle, hk, hlast⟩, hr⟩ := h.safe
    exact ⟨k, ⟨hle, hk, hlast⟩, hr⟩
  · rename_i hroom
    simp only [Inv, hpc]
    refine ⟨h.heads, h.clean, h.disk_home, ?_, ?_, ?_, ?_, ?_⟩
    · intro c hc
      have hrun : Store.run s.base (s.old ++ [s.cur ++ [(b, v)]]) =
          update (Store.run s.base s.txs) b v := by
        rw [Store.run_concat, Store.write_concat, State.txs, Store.run_concat]
      simp only [State.txs]
      rw [hrun]
      by_cases hcb : c = b
      · simp [hcb]
      · rw [update_of_ne hcb, update_of_ne hcb]
        exact h.cache_home c hc
    · intro c hc hn
      simp only at hn ⊢
      have hcb : c ≠ b := by
        rintro rfl
        split at hn <;> simp_all
      have hcl : c ∉ s.lh := by
        split at hn <;> simp_all
      rw [update_of_ne hcb]
      exact h.unlogged c hc hcl
    · intro c hc
      split at hc
      · exact h.lh_home c hc
      · rcases List.mem_append.1 hc with hc | hc
        · exact h.lh_home c hc
        · rwa [List.mem_singleton.1 hc]
    · split
      · exact h.lh_le
      · simp only [List.length_append, List.length_singleton]
        omega
    · split
      · exact h.lh_room
      · simp only [List.length_append, List.length_singleton]
        omega

/-- The next transaction starts where the one before it ended. -/
theorem State.run_txs_next (s : State) :
    Store.run s.base ((s.old ++ [s.cur]) ++ [[]]) = Store.run s.base s.txs := by
  rw [Store.run_concat]
  rfl

theorem Recording.commit (h : Recording L s) (hpc : s.pc = .recording) : Inv L (commit s) := by
  unfold Log.commit
  split
  · rename_i hlh
    -- an empty transaction: the cache is the disk on the home blocks
    simp only [Inv, hpc]
    have hcd : ∀ b, L.home b → s.disk b = Store.run s.base s.txs b := fun b hb => by
      rw [← h.unlogged b hb (by simp [hlh]), h.cache_home b hb]
    refine ⟨fun i hi => ?_, h.clean, hcd, fun b hb => ?_, h.unlogged, h.lh_home, h.lh_le,
      h.lh_room⟩
    · have := h.heads i hi
      simp only [List.length_append, List.length_singleton]
      omega
    · rw [State.txs, s.run_txs_next]
      exact h.cache_home b hb
  · exact ⟨⟨h.heads, h.clean, h.disk_home, h.cache_home, h.unlogged, h.lh_home, h.lh_le,
      h.lh_room⟩, fun i b hi => by omega⟩

/-- A round of `write_log`. -/
theorem Recording.writeLog (h : Recording L s) {tail b : ℕ} (hlog : Copied L s tail)
    (hb : s.lh[tail]? = some b) :
    Inv L { s.bwrite (L.data tail) (s.cache b) with pc := .writeLog (tail + 1) } := by
  have htail : tail + 1 < L.size := by
    have := (List.getElem?_eq_some_iff.1 hb).1
    have := h.lh_room
    omega
  have hne : ∀ c, L.home c → c ≠ L.data tail := fun c hc => Layout.home_ne_data hc htail
  refine ⟨⟨h.heads, ?_, ?_, ?_, ?_, h.lh_home, h.lh_le, h.lh_room⟩, ?_⟩
  · simp only [State.bwrite]
    rw [update_of_ne (Layout.data_ne_start tail).symm]
    exact h.clean
  · intro c hc
    simp only [State.bwrite]
    rw [update_of_ne (hne c hc)]
    exact h.disk_home c hc
  · intro c hc
    simp only [State.bwrite]
    rw [update_of_ne (hne c hc)]
    exact h.cache_home c hc
  · intro c hc hn
    simp only [State.bwrite]
    rw [update_of_ne (hne c hc), update_of_ne (hne c hc)]
    exact h.unlogged c hc hn
  · intro i c hi hc
    have hc' : L.home c := h.lh_home c (List.mem_of_getElem? hc)
    simp only [State.bwrite] at hc ⊢
    rw [update_of_ne (hne c hc')]
    rcases Nat.lt_succ_iff_lt_or_eq.1 hi with hi | rfl
    · have hd : L.data i ≠ L.data tail := fun e => hi.ne (Layout.data_inj.1 e)
      rw [update_of_ne hd, update_of_ne hd]
      exact hlog i c hi hc
    · rw [update_self, update_self, Option.some.inj (hc.symm.trans hb)]
      exact ⟨rfl, rfl⟩

/-- The commit point. -/
theorem Recording.commitPoint (h : Recording L s) {tail : ℕ} (hlog : Copied L s tail)
    (ht : s.lh[tail]? = none) :
    Inv L { s.putHead L s.lh with pc := .install 0, heads := s.heads ++ [s.old.length] } := by
  have hhead : readHead ((s.putHead L s.lh).disk L.start) = s.lh := readHead_putHead h.lh_le
  have hle : s.lh.length ≤ tail := List.getElem?_eq_none_iff.1 ht
  refine ⟨?_, ?_, hhead, ⟨?_, ?_, ?_, ?_⟩, fun i b hi => by omega, ?_, ?_⟩
  · intro i hi
    have hlen : s.txs.length = s.old.length + 1 := by simp [State.txs]
    rcases List.mem_append.1 hi with hi | hi
    · exact (h.heads i hi).trans (hlen ▸ Nat.lt_succ_self _)
    · rw [List.mem_singleton.1 hi]
      exact hlen ▸ Nat.lt_succ_self _
  · exact List.mem_append_right _ (List.mem_singleton_self _)
  · rw [hhead]; exact h.lh_room
  · rw [hhead]; exact h.lh_home
  · intro i b hb
    rw [hhead] at hb
    rw [putHead_disk_of_ne (Layout.data_ne_start i),
      (hlog i b ((List.getElem?_eq_some_iff.1 hb).1.trans_le hle) hb).1]
    exact h.cache_home b (h.lh_home b (List.mem_of_getElem? hb))
  · intro b hb hn
    rw [hhead] at hn
    rw [putHead_disk_of_ne (Layout.home_ne_start hb), ← h.unlogged b hb hn]
    exact h.cache_home b hb
  · intro i hi
    obtain ⟨hd, hc⟩ := hlog i s.lh[i] (hi.trans_le hle) (List.getElem?_eq_getElem hi)
    rw [putHead_cache_of_ne (Layout.data_ne_start i), putHead_disk_of_ne (Layout.data_ne_start i),
      hd, hc]
  · intro b hb
    rw [putHead_cache_of_ne (Layout.home_ne_start hb)]
    exact h.cache_home b hb

/-- A round of the commit's `install_trans`. -/
theorem Installing.installOne {tail b : ℕ} (h : Installing L s tail) (hb : s.lh[tail]? = some b) :
    Inv L { s.installOne L tail b with pc := .install (tail + 1) } := by
  have hlt : tail < s.lh.length := (List.getElem?_eq_some_iff.1 hb).1
  have hb' : (readHead (s.disk L.start))[tail]? = some b := by rw [h.head]; exact hb
  have hhome : L.home b := h.recovers.named_home b (List.mem_of_getElem? hb')
  have hv : s.cache (L.data tail) = s.disk (L.data tail) := h.cache_log tail hlt
  have hroom : ∀ i, i < s.lh.length → b ≠ L.data i := fun i hi => by
    have := h.recovers.room
    rw [h.head] at this
    exact Layout.home_ne_data hhome (by omega)
  have hdisk : (s.installOne L tail b).disk = update s.disk b (s.disk (L.data tail)) := by
    simp [State.installOne, State.bwrite, hv]
  refine ⟨h.heads, h.last, ?_, ?_, ?_, ?_, ?_⟩
  · simp only [hdisk]
    rw [update_of_ne (Layout.home_ne_start hhome).symm]
    exact h.head
  · simp only [hdisk]
    exact h.recovers.install hb'
  · simp only [hdisk]
    exact h.installed.install h.recovers hb'
  · intro i hi
    simp only [State.installOne, State.bwrite] at hi ⊢
    rw [update_of_ne (hroom i hi).symm, update_of_ne (hroom i hi).symm]
    exact h.cache_log i hi
  · intro c hc
    simp only [State.installOne, State.bwrite]
    by_cases hcb : c = b
    · rw [hcb, update_self, hv]
      exact h.recovers.logged tail b hb'
    · rw [update_of_ne hcb]
      exact h.cache_home c hc

/-- The transaction is erased from the log and the next one starts. -/
theorem Installing.erase {tail : ℕ} (h : Installing L s tail) (ht : s.lh[tail]? = none) :
    Inv L { s.putHead L [] with pc := .recording, old := s.old ++ [s.cur], cur := [] } := by
  have hle : (readHead (s.disk L.start)).length ≤ tail := by
    rw [h.head]; exact List.getElem?_eq_none_iff.1 ht
  have hd : ∀ b, L.home b → s.disk b = Store.run s.base s.txs b := fun b hb =>
    h.recovers.home_eq h.installed hle hb
  refine ⟨h.heads, readHead_putHead (by simp), ?_, ?_, ?_, by simp [State.putHead], ?_, ?_⟩
  · intro b hb
    rw [putHead_disk_of_ne (Layout.home_ne_start hb)]
    exact hd b hb
  · intro b hb
    rw [putHead_cache_of_ne (Layout.home_ne_start hb)]
    exact (h.cache_home b hb).trans (congrFun s.run_txs_next b).symm
  · intro b hb _
    rw [putHead_disk_of_ne (Layout.home_ne_start hb), putHead_cache_of_ne (Layout.home_ne_start hb),
      hd b hb, h.cache_home b hb]
  · simp [State.putHead]
  · exact L.size_pos

theorem Recovering.installOne {tail b : ℕ} (h : Recovering L s tail) (hb : s.lh[tail]? = some b) :
    Inv L { s.installOne L tail b with pc := .recover (tail + 1) } := by
  obtain ⟨k, ⟨hkle, hk, hlast⟩, hr, hi⟩ := h.recovers
  have hb' : (readHead (s.disk L.start))[tail]? = some b := by rw [h.head]; exact hb
  have hhome : L.home b := hr.named_home b (List.mem_of_getElem? hb')
  refine ⟨?_, ?_, k, ⟨hkle, hk, hlast⟩, ?_, ?_⟩
  · simp [State.installOne, State.bwrite, h.cache]
  · simp only [State.installOne, State.bwrite]
    rw [update_of_ne (Layout.home_ne_start hhome).symm]
    exact h.head
  · simp only [State.installOne, State.bwrite, h.cache]
    exact hr.install hb'
  · simp only [State.installOne, State.bwrite, h.cache]
    exact hi.install hr hb'

/-- The log is cleared and `initlog` finishes. -/
theorem Recovering.finish {tail : ℕ} (h : Recovering L s tail) (ht : s.lh[tail]? = none) :
    Inv L { s.putHead L [] with pc := .ready } := by
  obtain ⟨k, ⟨hkle, hk, hlast⟩, hr, hi⟩ := h.recovers
  have hle : (readHead (s.disk L.start)).length ≤ tail := by
    rw [h.head]; exact List.getElem?_eq_none_iff.1 ht
  refine ⟨?_, rfl, readHead_putHead (by simp), k, ⟨hkle, hk, hlast⟩, ?_⟩
  · simp [State.putHead, State.bwrite, h.cache]
  · intro b hb
    rw [putHead_disk_of_ne (Layout.home_ne_start hb)]
    exact hr.home_eq hi hle hb

theorem Inv.step {t : State} (h : Inv L s) (hst : Log.step L s = some t) : Inv L t := by
  unfold Log.step at hst
  split at hst
  · -- `read_head`
    rename_i hpc
    obtain rfl := Option.some.inj hst
    simp only [Inv, hpc] at h
    obtain ⟨hc, k, ⟨hkle, hk, hlast⟩, hr⟩ := h
    exact ⟨hc, by rw [hc], k, ⟨hkle, hk, hlast⟩, hr, fun i b hi => by omega⟩
  · rename_i tail hpc
    simp only [Inv, hpc] at h
    split at hst <;> obtain rfl := Option.some.inj hst
    · exact h.installOne ‹_›
    · exact h.finish ‹_›
  · rename_i tail hpc
    simp only [Inv, hpc] at h
    split at hst <;> obtain rfl := Option.some.inj hst
    · exact h.1.writeLog h.2 ‹_›
    · exact h.1.commitPoint h.2 ‹_›
  · rename_i tail hpc
    simp only [Inv, hpc] at h
    split at hst <;> obtain rfl := Option.some.inj hst
    · exact h.installOne ‹_›
    · exact h.erase ‹_›
  · cases hst
  · cases hst
  · cases hst

/-- A crash leaves a disk that recovers to the same contents. -/
theorem Inv.crash (h : Inv L s) : Inv L { s with cache := s.disk, lh := [], pc := .boot } := by
  obtain ⟨k, ⟨hkle, hk, hlast⟩, hr⟩ := h.safe
  exact ⟨rfl, k, ⟨hkle, hk, hlast⟩, hr⟩

/-- The first transaction after `initlog` has finished. -/
theorem Inv.start (h : Inv L s) (hpc : s.pc = .ready) :
    Inv L { s with pc := .recording, base := s.disk, old := [], cur := [], heads := [] } := by
  simp only [Inv, hpc] at h
  obtain ⟨hc, hlh, hclean, -⟩ := h
  exact ⟨by simp, hclean, fun _ _ => rfl, fun _ _ => by rw [hc]; rfl, fun _ _ _ => by rw [hc],
    by simp [hlh], by simp [hlh], by simp [hlh, L.size_pos]⟩

theorem inv_of_reachable (h : (machine L).Reachable s) : Inv L s := by
  refine Machine.Reach.invariant h ?_ ?_
  · rintro s ⟨hclean, hc, hpc, hb, ho, hcur, hh⟩
    simp only [Inv, hpc]
    refine ⟨hc, 0, ⟨by simp, by simp [hh], by simp⟩, recovers_of_clean hclean fun b _ => ?_⟩
    simp [State.after, Store.run, hb]
  · rintro s t (_ | ⟨b, v⟩ | _ | _ | _) hs - hst <;> simp only [machine] at hst
    · split at hst
      · obtain rfl := Option.some.inj hst
        exact hs.start ‹_›
      · cases hst
    · split at hst
      · rename_i hpc
        obtain rfl := Option.some.inj hst
        exact Recording.logWrite (by simpa only [Inv, hpc.1] using hs) hpc.1 hpc.2 v
      · cases hst
    · split at hst
      · rename_i hpc
        obtain rfl := Option.some.inj hst
        exact Recording.commit (by simpa only [Inv, hpc] using hs) hpc
      · cases hst
    · exact hs.step hst
    · obtain rfl := Option.some.inj hst
      exact hs.crash

/-- **Crash atomicity.** Whenever an `initlog` has finished, after any number of crashes, the home
blocks hold their contents after some prefix of the transactions that has every one whose first
`write_head` reached the disk. The transaction that the crash interrupted is part of it only if its
own `write_head` did. -/
theorem crash_atomicity (L : Layout) {s : State} (h : (machine L).Reachable s)
    (hpc : s.pc = .ready) :
    ∃ k ≤ s.txs.length, (∀ i ∈ s.heads, i < k) ∧ (s.old.length < k → s.old.length ∈ s.heads) ∧
      ∀ b, L.home b → s.disk b = Store.run s.base (s.txs.take k) b := by
  have hinv := inv_of_reachable h
  simp only [Inv, hpc] at hinv
  obtain ⟨-, -, -, k, hk, hd⟩ := hinv
  exact ⟨k, hk.le, hk.heads, hk.last, hd⟩

/-- A log of four blocks from block `2` on. -/
def smallLog : Layout := ⟨2, 4, by decide⟩

/-- A disk of zeros, before the first boot. -/
def zeroState : State :=
  { disk := fun _ _ => 0, cache := fun _ _ => 0, lh := [], pc := .boot, base := fun _ _ => 0,
    old := [], cur := [], heads := [] }

/-- Block `10` is written, the machine crashes right after the commit point, and again in the
middle of the recovery. -/
def twoCrashes : List Act :=
  [.step, .step, .start, .write 10 (fun _ => 7), .commit, .step, .step, .crash, .step, .crash,
    .step, .step, .step]

/-- The transaction survives both crashes. -/
theorem crash_atomicity_twoCrashes :
    ∃ s, (machine smallLog).exec zeroState twoCrashes = some s ∧ s.pc = .ready ∧ s.heads = [0] ∧
      ∃ k ≤ s.txs.length, (∀ i ∈ s.heads, i < k) ∧ (s.old.length < k → s.old.length ∈ s.heads) ∧
        ∀ b, smallLog.home b → s.disk b = Store.run s.base (s.txs.take k) b := by
  refine ⟨_, rfl, rfl, rfl, ?_⟩
  have hinit : (machine smallLog).init zeroState := ⟨rfl, rfl, rfl, rfl, rfl, rfl, rfl⟩
  exact crash_atomicity smallLog (Machine.reachable_of_exec hinit twoCrashes rfl) rfl

end Dockv6.Log
