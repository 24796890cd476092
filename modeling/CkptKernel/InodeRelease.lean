/-
Truncating and freeing inodes: `itrunc` gives back every block of an inode,
and `iput` frees an inode whose last reference goes while no directory entry
names it.  Neither ever gives back a block that is free, and both keep the free
map exact.
-/
import CkptKernel.InodeTable
import CkptKernel.QuietCalls

namespace CkptKernel

open ByteMem Code Ownership
open Function (update_of_ne update_self)

/-- Every reason to stop but the one of `bfree`. -/
def Lawful (reason : Stop) : Prop := reason ≠ .panic "freeing free block"

theorem lawful_panic {message : String} (hmessage : message ≠ "freeing free block") :
    Lawful (.panic message) := fun heq =>
  hmessage (Stop.panic.inj heq)

theorem lawful_sleep : Lawful .sleep := fun heq => Stop.noConfusion heq

instance : Mild Lawful where
  sleep := lawful_sleep
  panic message hmem := by
    have hothers : ∀ message ∈ fsPanics, message ≠ "freeing free block" := by
      decide
    exact lawful_panic (hothers message hmem)

variable {fs : Fs}

/-- `bfree` of a block that is in use. -/
theorem ends_bfree {b : Nat} (hused : fs.used b = true) {post : Unit → Fs → Prop}
    (hpost : ∀ log, post () (fs.take b log)) : ends (bfree b) fs post Lawful := by
  unfold bfree
  rw [ends_bind, ends_read, ends_ite, if_pos hused]
  exact Quiet.ends (quiet_logWrite _ _) (wlp_logWrite.mpr fun log _ => hpost log)

/-- A block that no inode refers to may be given back. -/
theorem Fs.Sound.take {dn : Nat → Dinode} (hsound : fs.Sound dn) {b : Nat} (log : Log)
    (hlow : fs.sb.datastart ≤ b) (hhigh : b < fs.sb.size)
    (hfree : ∀ inum slot, LivePlace fs.sb dn (inum, slot) → (dn inum).blockAt fs.disk slot ≠ b) :
    (fs.take b log).Sound dn := by
  have haddr : ∀ inum slot, LivePlace fs.sb dn (inum, slot) →
      (dn inum).blockAt (fs.take b log).disk slot = (dn inum).blockAt fs.disk slot := by
    rintro inum slot ⟨hinum, htype, _⟩
    exact blockAt_congr slot fun hind =>
      take_disk log hhigh (hsound.indirect_given hinum htype hind).1
  refine ⟨hsound.layout, ?_, ?_, ?_⟩
  · intro c hc hsize
    rw [take_sb] at hc hsize
    have hne : c ≠ b := by omega
    rw [take_used, hsound.marked c hc hsize]
    simp [hne]
  · refine hsound.owned.mono ?_ ?_
    · rintro ⟨inum, slot⟩ hlive _
      exact ⟨hlive, haddr inum slot hlive⟩
    rintro ⟨inum, slot⟩ hlive _ ⟨hdata, hsize, hused⟩
    refine ⟨hdata, hsize, ?_⟩
    have hne : placeAddr dn fs.disk (inum, slot) ≠ b :=
      hfree inum slot hlive
    rw [take_used, hused]
    simp [hne]
  · intro inum hinum htype
    obtain ⟨hsize, hmapped⟩ := hsound.full inum hinum htype
    refine ⟨hsize, fun bn hbn => ?_⟩
    have hlt : bn < MAXFILE :=
      Nat.lt_of_mul_lt_mul_right (Nat.lt_of_lt_of_le hbn hsize)
    rw [haddr inum (slotOf bn) ⟨hinum, htype, slotOf_valid hlt⟩]
    exact hmapped bn hbn

/-- An inode without contents. -/
def Dinode.emptied (dn : Dinode) : Dinode :=
  { dn with size := 0, addrs := fun _ => 0 }

/-- The inodes once `ip` has lost its contents. -/
def Fs.emptied (fs : Fs) (ip : InodeRef) : Nat → Dinode :=
  Function.update fs.dinode (fs.inode ip).inum (fs.inode ip).copy.emptied

variable {ip : InodeRef}

theorem emptied_of_ne {inum : Nat} (hne : inum ≠ (fs.inode ip).inum) :
    fs.emptied ip inum = fs.seen ip inum := by
  rw [Fs.emptied, Fs.seen, update_of_ne hne, update_of_ne hne]

/-- An inode without contents owns nothing. -/
theorem Fs.Sound.blank {fs : Fs} {dn : Nat → Dinode} (hsound : fs.Sound dn)
    (inum : Nat) {new : Dinode} (hsize : new.size = 0) (hblank : ∀ i, new.addrs i = 0) :
    fs.Sound (Function.update dn inum new) := by
  refine ⟨hsound.layout, hsound.marked, ?_, ?_⟩
  · refine hsound.owned.mono ?_ (fun _ _ _ hgiven => hgiven)
    rintro ⟨other, slot⟩ ⟨hother, htype, hvalid⟩ hne
    by_cases heq : other = inum
    · rw [placeAddr, heq, update_self, blank_blockAt hblank] at hne
      exact (hne rfl).elim
    · rw [update_of_ne heq] at htype
      exact ⟨⟨hother, htype, hvalid⟩, by rw [placeAddr, placeAddr, update_of_ne heq]⟩
  · intro other hother htype
    by_cases heq : other = inum
    · rw [heq, update_self]
      exact ⟨by simp [hsize], fun bn hbn => by simp [hsize] at hbn⟩
    · rw [update_of_ne heq] at htype ⊢
      exact hsound.full other hother htype

theorem Fs.Working.emptied (hwork : fs.Working ip) : fs.Sound (fs.emptied ip) := by
  have hblank := @Fs.Sound.blank fs _ hwork.sound (fs.inode ip).inum
    (fs.inode ip).copy.emptied rfl (fun _ => rfl)
  rwa [Fs.seen, Function.update_idem] at hblank

/-- A block of `ip` belongs to no inode once `ip` is empty. -/
theorem Fs.Working.unowned (hwork : fs.Working ip) (slot : BlockSlot) (hslot : slot.Valid)
    (hne : (fs.inode ip).copy.blockAt fs.disk slot ≠ 0) (inum : Nat)
    (other : BlockSlot) (hlive : LivePlace fs.sb (fs.emptied ip) (inum, other)) :
    (fs.emptied ip inum).blockAt fs.disk other ≠ (fs.inode ip).copy.blockAt fs.disk slot := by
  by_cases heq : inum = (fs.inode ip).inum
  · rw [Fs.emptied, heq, update_self, blank_blockAt (fun _ => rfl)]
    exact Ne.symm hne
  obtain ⟨hinum, htype, hvalid⟩ := hlive
  rw [emptied_of_ne heq] at htype ⊢
  intro hsame
  have hplace := hwork.sound.unique (fs.inode ip).inum slot inum other
    (hwork.live slot hslot) ⟨hinum, htype, hvalid⟩
    (by rwa [seen_self]) (by rw [seen_self, hsame])
  exact heq hplace.1.symm

/-- `itrunc` on its way from `fs`: some blocks are free, some addresses of
`ip` are cleared. -/
structure Fs.Emptying (ip : InodeRef) (fs fs' : Fs) : Prop where
  sb : fs'.sb = fs.sb
  sound : fs'.Sound (fs.emptied ip)
  data : ∀ c, fs.sb.datastart ≤ c → fs'.disk c = fs.disk c
  dinode : ∀ inum, inum < fs.sb.ninodes → fs'.dinode inum = fs.dinode inum
  others : ∀ other, other ≠ ip → fs'.inode other = fs.inode other
  self : ∃ addrs, (∀ i, addrs i = (fs.inode ip).copy.addrs i ∨ addrs i = 0) ∧
    fs'.inode ip = { fs.inode ip with
      copy := { (fs.inode ip).copy with addrs := addrs } }

namespace Fs.Emptying

variable {ip : InodeRef} {fs fs' : Fs}

theorem refl (hwork : fs.Working ip) : Fs.Emptying ip fs fs :=
  ⟨rfl, hwork.emptied, fun _ _ => rfl, fun _ _ => rfl, fun _ _ => rfl,
    ⟨_, fun _ => Or.inl rfl, rfl⟩⟩

/-- A block that `ip` had may go. -/
theorem take (hwork : fs.Working ip) (hstep : Fs.Emptying ip fs fs')
    (slot : BlockSlot) (hslot : slot.Valid)
    (hne : (fs.inode ip).copy.blockAt fs.disk slot ≠ 0) (log : Log) : Fs.Emptying ip fs
      (fs'.take ((fs.inode ip).copy.blockAt fs.disk slot) log) := by
  have hgiven := hwork.sound.given _ slot (hwork.live slot hslot) (by rwa [seen_self])
  rw [seen_self] at hgiven
  obtain ⟨hlow, hhigh, _⟩ := hgiven
  refine ⟨hstep.sb, ?_, ?_, ?_, hstep.others, hstep.self⟩
  · refine hstep.sound.take log (hstep.sb ▸ hlow) (hstep.sb ▸ hhigh) ?_
    intro inum other hlive
    have hinum := hlive.1
    rw [hstep.sb] at hlive hinum
    have hsame : (fs.emptied ip inum).blockAt fs'.disk other =
        (fs.emptied ip inum).blockAt fs.disk other :=
      blockAt_congr other fun hind => hstep.data _
        (hwork.emptied.indirect_given hinum hlive.2.1 hind).1
    rw [hsame]
    exact hwork.unowned slot hslot hne inum other hlive
  · intro c hc
    rw [take_disk log (hstep.sb ▸ hhigh) (hstep.sb ▸ hc), hstep.data c hc]
  · intro inum hinum
    rw [take_dinode (hstep.sb ▸ hwork.sound.layout) log (hstep.sb ▸ hinum), hstep.dinode inum hinum]

/-- An address of `ip` may be cleared. -/
theorem clear (hstep : Fs.Emptying ip fs fs') (i : Fin (NDIRECT + 1)) :
    Fs.Emptying ip fs (fs'.withCopy ip (·.withAddr i 0)) := by
  refine ⟨hstep.sb, hstep.sound.withInode ip _, hstep.data, hstep.dinode, ?_, ?_⟩
  · intro other hne
    rw [Fs.withCopy, withInode_of_ne _ _ _ hne, hstep.others other hne]
  obtain ⟨addrs, haddrs, hself⟩ := hstep.self
  refine ⟨Function.update addrs i 0, ?_, ?_⟩
  · intro k
    by_cases hk : k = i
    · exact Or.inr (by rw [hk, update_self])
    · rw [update_of_ne hk]
      exact haddrs k
  · rw [Fs.withCopy, withInode_self, hself]
    rfl

end Fs.Emptying

/-- `itrunc` on its way from `fs`, with the places `left` still to come: their
blocks are in use, and nothing else is that `ip` had. -/
structure Fs.Draining (ip : InodeRef) (left : BlockSlot → Prop) (fs fs' : Fs) : Prop where
  step : Fs.Emptying ip fs fs'
  valid : ∀ slot, left slot → slot.Valid
  held : ∀ slot, left slot → (fs.inode ip).copy.blockAt fs.disk slot ≠ 0 →
    fs'.used ((fs.inode ip).copy.blockAt fs.disk slot) = true
  addrs : ∀ i, left (.addr i) → (fs'.inode ip).copy.addrs i = (fs.inode ip).copy.addrs i
  cleared : ∀ i, ¬ left (.addr i) → (fs'.inode ip).copy.addrs i = 0
  tight : fs.Tight (fs.seen ip) → ∀ b, fs'.Given b →
    (∃ place, LivePlace fs.sb (fs.emptied ip) place ∧ placeAddr (fs.emptied ip) fs.disk place = b) ∨
    ∃ slot, left slot ∧ (fs.inode ip).copy.blockAt fs.disk slot = b

namespace Fs.Draining

variable {ip : InodeRef} {left left' : BlockSlot → Prop} {fs fs' : Fs}

theorem start (hwork : fs.Working ip) : Fs.Draining ip BlockSlot.Valid fs fs := by
  refine ⟨.refl hwork, fun _ hslot => hslot, ?_, fun _ _ => rfl,
    fun _ hnot => (hnot trivial).elim, ?_⟩
  · intro slot hslot hne
    have hgiven := hwork.sound.given _ slot (hwork.live slot hslot) (by rwa [seen_self])
    rw [seen_self] at hgiven
    exact hgiven.2.2
  · intro htight b hb
    obtain ⟨⟨inum, slot⟩, ⟨hinum, htype, hvalid⟩, heq⟩ := htight b hb
    by_cases hself : inum = (fs.inode ip).inum
    · subst hself
      rw [placeAddr, seen_self] at heq
      exact Or.inr ⟨slot, hvalid, heq⟩
    · rw [← emptied_of_ne hself] at htype
      refine Or.inl ⟨(inum, slot), ⟨hinum, htype, hvalid⟩, ?_⟩
      rw [placeAddr, emptied_of_ne hself]
      exact heq

/-- A place without a block needs no visit. -/
theorem skip (hdrain : Fs.Draining ip left fs fs') (hless : ∀ slot, left' slot → left slot)
    (hrest : ∀ slot, left slot → ¬ left' slot → (fs.inode ip).copy.blockAt fs.disk slot = 0) :
    Fs.Draining ip left' fs fs' := by
  refine ⟨hdrain.step, fun slot hslot => hdrain.valid slot (hless slot hslot),
    fun slot hslot => hdrain.held slot (hless slot hslot),
    fun i hi => hdrain.addrs i (hless _ hi), ?_, ?_⟩
  · intro i hnot
    by_cases hold : left (.addr i)
    · rw [hdrain.addrs i hold]
      exact UInt32.toNat_inj.mp (hrest _ hold hnot)
    · exact hdrain.cleared i hold
  · intro htight b hb
    rcases hdrain.tight htight b hb with hother | ⟨slot, hslot, heq⟩
    · exact Or.inl hother
    · by_cases hkept : left' slot
      · exact Or.inr ⟨slot, hkept, heq⟩
      · rw [hrest slot hslot hkept] at heq
        exact (fs'.not_given_zero (heq ▸ hb)).elim

section Take

variable {slot : BlockSlot} (log : Log) (hwork : fs.Working ip)
  (hdrain : Fs.Draining ip left fs fs') (hslot : left slot)
  (hne : (fs.inode ip).copy.blockAt fs.disk slot ≠ 0)
  (hless : ∀ other, left' other → left other ∧ other ≠ slot)
  (hrest : ∀ other, left other → other ≠ slot → left' other)

include hwork hdrain hslot hne hless hrest

/-- The block of a place is given back. -/
theorem take {fs'' : Fs} (hstep : Fs.Emptying ip fs fs'')
    (hused : fs''.used = (fs'.take ((fs.inode ip).copy.blockAt fs.disk slot) log).used)
    (haddrs : ∀ i, left' (.addr i) → (fs''.inode ip).copy.addrs i = (fs'.inode ip).copy.addrs i)
    (hcleared : ∀ i, ¬ left' (.addr i) → (fs''.inode ip).copy.addrs i = 0) :
    Fs.Draining ip left' fs fs'' := by
  have hvalid := hdrain.valid slot hslot
  refine ⟨hstep, fun other hother => hdrain.valid other (hless other hother).1,
    ?_, fun i hi => (haddrs i hi).trans (hdrain.addrs i (hless _ hi).1), hcleared, ?_⟩
  · intro other hother hother0
    obtain ⟨hleft, hdiff⟩ := hless other hother
    have hblock : (fs.inode ip).copy.blockAt fs.disk other ≠
        (fs.inode ip).copy.blockAt fs.disk slot := by
      intro heq
      have hplace := hwork.sound.unique _ other _ slot
        (hwork.live other (hdrain.valid other hleft)) (hwork.live slot hvalid)
        (by rwa [seen_self]) (by rw [seen_self]; exact heq)
      exact hdiff hplace.2
    rw [hused, take_used, hdrain.held other hleft hother0]
    simp [hblock]
  · rintro htight b ⟨hdata, hsize, hmark⟩
    rw [hstep.sb, ← hdrain.step.sb] at hdata hsize
    rw [hused, take_used, Bool.and_eq_true, decide_eq_true_eq] at hmark
    rcases hdrain.tight htight b ⟨hdata, hsize, hmark.2⟩ with
      hother | ⟨other, hother, heq⟩
    · exact Or.inl hother
    · refine Or.inr ⟨other, hrest other hother ?_, heq⟩
      rintro rfl
      exact hmark.1 heq.symm

theorem takeEntry {j : Nat} (hentry : slot = .entry j) : Fs.Draining ip left' fs
      (fs'.take ((fs.inode ip).copy.blockAt fs.disk slot) log) :=
  hdrain.take log hwork hslot hne hless hrest
    (hdrain.step.take hwork slot (hdrain.valid slot hslot) hne log) rfl
    (fun _ _ => rfl) fun i hnot => hdrain.cleared i fun hold =>
      hnot (hrest _ hold (by rw [hentry]; exact BlockSlot.noConfusion))

/-- The address of a place that has been visited is cleared. -/
theorem takeAddr {i : Fin (NDIRECT + 1)} (haddr : slot = .addr i) :
    Fs.Draining ip left' fs ((fs'.take ((fs.inode ip).copy.blockAt fs.disk slot) log).withCopy ip
        (·.withAddr i 0)) := by
  refine hdrain.take log hwork hslot hne hless hrest ((hdrain.step.take hwork slot
    (hdrain.valid slot hslot) hne log).clear i) rfl ?_ ?_
  · intro k hk
    have hdiff : k ≠ i := fun heq => (hless _ hk).2 (by rw [heq, haddr])
    rw [Fs.withCopy, withInode_self]
    exact update_of_ne hdiff _ _
  · intro k hnot
    rw [Fs.withCopy, withInode_self]
    by_cases heq : k = i
    · rw [heq]
      exact update_self _ _ _
    · refine (update_of_ne heq _ _).trans (hdrain.cleared k fun hold =>
        hnot (hrest _ hold fun hsame => heq ?_))
      rw [haddr] at hsame
      exact BlockSlot.addr.inj hsame

end Take

/-- All places have been visited. -/
theorem done (hdrain : Fs.Draining ip left fs fs') (hwork : fs.Working ip)
    (hnone : ∀ slot, ¬ left slot) (htight : fs.Tight (fs.seen ip)) : fs'.Tight (fs.emptied ip) := by
  intro b hb
  rcases hdrain.tight htight b hb with ⟨place, hlive, heq⟩ | ⟨slot, hslot, _⟩
  · refine ⟨place, hdrain.step.sb ▸ hlive, ?_⟩
    rw [← heq, placeAddr, placeAddr]
    exact blockAt_congr place.2 fun hind => hdrain.step.data _
      (hwork.emptied.indirect_given hlive.1 hlive.2.1 hind).1
  · exact (hnone slot hslot).elim

end Fs.Draining

/-- The places `itrunc` has not visited when the direct slots `rest` and the
indirect block are left. -/
def directLeft (rest : List (Fin NDIRECT)) : BlockSlot → Prop
  | .addr i => i = indirectSlot ∨ ∃ k ∈ rest, i = k.castSucc
  | .entry j => j < NINDIRECT

/-- The places left when the entries `rest` of the indirect block and the block
itself are. -/
def indirectLeft (rest : List Nat) : BlockSlot → Prop
  | .addr i => i = indirectSlot
  | .entry j => j ∈ rest ∧ j < NINDIRECT

section Truncation

variable {fs fs' : Fs} {ip : InodeRef}

theorem ends_itruncDirect (hwork : fs.Working ip) {k : Fin NDIRECT} {rest : List (Fin NDIRECT)}
    (hnodup : (k :: rest).Nodup) (hdrain : Fs.Draining ip (directLeft (k :: rest)) fs fs') :
    ends (itruncDirect ip k.castSucc) fs'
      (fun _ fs'' => Fs.Draining ip (directLeft rest) fs fs'') Lawful := by
  have hleft : directLeft (k :: rest) (.addr k.castSucc) :=
    Or.inr ⟨k, List.mem_cons_self, rfl⟩
  have hdone : ¬ directLeft rest (.addr k.castSucc) := by
    rintro (heq | ⟨j, hj, heq⟩)
    · exact Fin.castSucc_ne_last k heq
    · rw [Fin.castSucc_inj] at heq
      exact (List.nodup_cons.mp hnodup).1 (heq ▸ hj)
  have hless : ∀ slot, directLeft rest slot → directLeft (k :: rest) slot := by
    intro slot hslot
    cases slot with
    | entry j => exact hslot
    | addr i =>
      rcases hslot with heq | ⟨j, hj, heq⟩
      · exact Or.inl heq
      · exact Or.inr ⟨j, List.mem_cons_of_mem k hj, heq⟩
  have hrest : ∀ slot, directLeft (k :: rest) slot → slot ≠ .addr k.castSucc →
      directLeft rest slot := by
    intro slot hslot hne
    cases slot with
    | entry j => exact hslot
    | addr i =>
      rcases hslot with heq | ⟨j, hj, heq⟩
      · exact Or.inl heq
      · rcases List.mem_cons.mp hj with rfl | hj
        · exact (hne (by rw [heq])).elim
        · exact Or.inr ⟨j, hj, heq⟩
  unfold itruncDirect
  rw [ends_bind, ends_read]
  dsimp only
  rw [Code.when, ends_ite, hdrain.addrs _ hleft]
  split
  next hne =>
    have hzero : (fs.inode ip).copy.blockAt fs.disk (.addr k.castSucc) ≠ 0 :=
      fun heq => hne (UInt32.toNat_inj.mp heq)
    rw [ends_bind]
    exact ends_bfree (hdrain.held _ hleft hzero) fun log =>
      hdrain.takeAddr log hwork hleft hzero (fun slot hslot =>
        ⟨hless slot hslot, fun heq => hdone (heq ▸ hslot)⟩) hrest rfl
  next hempty =>
    rw [not_not] at hempty
    rw [ends_pure]
    refine hdrain.skip hless fun slot hslot hnot => ?_
    by_cases heq : slot = .addr k.castSucc
    · rw [heq]
      exact UInt32.toNat_inj.mpr hempty
    · exact (hnot (hrest slot hslot heq)).elim

theorem ends_itruncEntry (hwork : fs.Working ip) (hind : (fs.inode ip).copy.addrs indirectSlot ≠ 0)
    {j : Nat} {rest : List Nat} (hnodup : (j :: rest).Nodup) (hj : j < NINDIRECT)
    (hdrain : Fs.Draining ip (indirectLeft (j :: rest)) fs fs') :
    ends (itruncEntry ((fs.inode ip).copy.addrs indirectSlot).toNat j) fs'
      (fun _ fs'' => Fs.Draining ip (indirectLeft rest) fs fs'') Lawful := by
  have hgiven := hwork.sound.indirect_given hwork.inum
    (by rw [seen_self]; exact hwork.type) (by rw [seen_self]; exact hind)
  rw [seen_self] at hgiven
  have hentry : fs'.entry ((fs.inode ip).copy.addrs indirectSlot).toNat j =
      (fs.inode ip).copy.blockAt fs.disk (.entry j) := by
    simp only [Fs.entry, Dinode.blockAt, hind, if_false, hdrain.step.data _ hgiven.1]
  have hless : ∀ slot, indirectLeft rest slot →
      indirectLeft (j :: rest) slot ∧ slot ≠ .entry j := by
    intro slot hslot
    cases slot with
    | addr i => exact ⟨hslot, fun heq => by cases heq⟩
    | entry k =>
      refine ⟨⟨List.mem_cons_of_mem j hslot.1, hslot.2⟩, fun heq => ?_⟩
      cases heq
      exact (List.nodup_cons.mp hnodup).1 hslot.1
  have hrest : ∀ slot, indirectLeft (j :: rest) slot → slot ≠ .entry j →
      indirectLeft rest slot := by
    intro slot hslot hne
    cases slot with
    | addr i => exact hslot
    | entry k =>
      refine ⟨(List.mem_cons.mp hslot.1).resolve_left fun heq => hne ?_, hslot.2⟩
      rw [heq]
  have hleft : indirectLeft (j :: rest) (.entry j) := ⟨List.mem_cons_self, hj⟩
  unfold itruncEntry
  rw [ends_bind, ends_read, Code.when, ends_ite, hentry]
  split
  next hne =>
    exact ends_bfree (hdrain.held _ hleft hne) fun log =>
      hdrain.takeEntry log hwork hleft hne hless hrest rfl
  rename_i hempty
  rw [not_not] at hempty
  rw [ends_pure]
  refine hdrain.skip (fun slot hslot => (hless slot hslot).1) fun slot hslot hnot => ?_
  by_cases heq : slot = .entry j
  · rw [heq, hempty]
  · exact (hnot (hrest slot hslot heq)).elim

theorem ends_itruncIndirect (hwork : fs.Working ip)
    (hdrain : Fs.Draining ip (directLeft []) fs fs') : ends (itruncIndirect ip) fs' (fun _ fs'' =>
      Fs.Draining ip (fun _ => False) fs fs'') Lawful := by
  have hslots : ∀ slot, indirectLeft (List.range NINDIRECT) slot → directLeft [] slot := by
    intro slot hslot
    cases slot with
    | addr i => exact Or.inl hslot
    | entry j => exact hslot.2
  unfold itruncIndirect
  rw [ends_bind, ends_read]
  dsimp only
  rw [Code.when, ends_ite, hdrain.addrs _ (Or.inl rfl)]
  split
  next hne =>
    have hzero : (fs.inode ip).copy.blockAt fs.disk (.addr indirectSlot) ≠ 0 :=
      fun heq => hne (UInt32.toNat_inj.mp heq)
    have hstart : Fs.Draining ip (indirectLeft (List.range NINDIRECT)) fs fs' := by
      refine hdrain.skip hslots fun slot hslot hnot => ?_
      cases slot with
      | addr i =>
        rcases hslot with heq | ⟨k, hk, _⟩
        · exact (hnot heq).elim
        · cases hk
      | entry j => exact (hnot ⟨List.mem_range.mpr hslot, hslot⟩).elim
    rw [ends_bind]
    have hloop := @ends_forEach Fs Nat Lawful
      (itruncEntry ((fs.inode ip).copy.addrs indirectSlot).toNat)
      (fun rest state => Fs.Draining ip (indirectLeft rest) fs state ∧
        rest.Nodup ∧ ∀ j ∈ rest, j < NINDIRECT) ?_ _ fs'
      ⟨hstart, List.nodup_range, fun j hj => List.mem_range.mp hj⟩
    · refine ends_mono hloop ?_
      rintro _ state ⟨hstate, _, _⟩
      have hleft : indirectLeft [] (.addr indirectSlot) := rfl
      rw [ends_bind]
      refine ends_bfree (hstate.held _ hleft hzero) fun log => ?_
      refine hstate.takeAddr log hwork hleft hzero (fun _ hfalse => hfalse.elim) ?_ rfl
      intro slot hslot hdiff
      cases slot with
      | addr i => exact hdiff (by rw [hslot])
      | entry j => cases hslot.1
    · rintro j rest state ⟨hstate, hnodup, hlt⟩
      refine ends_mono (ends_itruncEntry hwork hne hnodup (hlt j List.mem_cons_self) hstate) ?_
      intro _ state' hnext
      exact ⟨hnext, (List.nodup_cons.mp hnodup).2, fun k hk => hlt k (List.mem_cons_of_mem j hk)⟩
  next hempty =>
    rw [not_not] at hempty
    rw [ends_pure]
    refine hdrain.skip (fun _ hfalse => hfalse.elim) fun slot hslot _ => ?_
    cases slot with
    | addr i =>
      rcases hslot with heq | ⟨k, hk, _⟩
      · rw [heq]
        exact UInt32.toNat_inj.mpr hempty
      · cases hk
    | entry j => simp [Dinode.blockAt, hempty]

structure Fs.Truncated (ip : InodeRef) (fs fs' : Fs) : Prop where
  sb : fs'.sb = fs.sb
  sound : fs'.Sound fs'.dinode
  dinode : ∀ inum, inum < fs.sb.ninodes → fs'.dinode inum = fs.emptied ip inum
  data : ∀ c, fs.sb.datastart ≤ c → fs'.disk c = fs.disk c
  inode : fs'.inode = (fs.withCopy ip Dinode.emptied).inode
  tidy : fs.Tight (fs.seen ip) → fs'.Tidy

/-- `itrunc` gives back every block of the inode and no other. -/
theorem ends_itrunc (hwork : fs.Working ip) :
    ends (itrunc ip) fs (fun _ fs' => Fs.Truncated ip fs fs') Lawful := by
  have hstart : Fs.Draining ip (directLeft (List.finRange NDIRECT)) fs fs := by
    refine (Fs.Draining.start hwork).skip ?_ ?_
    · intro slot hslot
      cases slot with
      | addr i => trivial
      | entry j => exact hslot
    · intro slot hslot hnot
      refine (hnot ?_).elim
      cases slot with
      | addr i =>
        induction i using Fin.lastCases with
        | last => exact Or.inl rfl
        | cast k => exact Or.inr ⟨k, List.mem_finRange k, rfl⟩
      | entry j => exact hslot
  have hdirect := @ends_forEach Fs (Fin NDIRECT) Lawful (fun i => itruncDirect ip i.castSucc)
    (fun rest state => Fs.Draining ip (directLeft rest) fs state ∧ rest.Nodup)
    (by
      rintro k rest state ⟨hstate, hnodup⟩
      exact ends_mono (ends_itruncDirect hwork hnodup hstate) fun _ _ hnext =>
        ⟨hnext, (List.nodup_cons.mp hnodup).2⟩) _ fs
    ⟨hstart, List.nodup_finRange NDIRECT⟩
  unfold itrunc
  refine ends_seq hdirect ?_
  rintro _ fs₁ ⟨hdrain₁, _⟩
  refine ends_seq (ends_itruncIndirect hwork hdrain₁) ?_
  intro _ fs₂ hdrain₂
  have hstep₂ := hdrain₂.step
  rw [ends_bind, ends_setCopy]
  refine Quiet.ends (quiet_iupdate ip) ?_
  simp only [iupdate, writeDinode, wlp_bind, wlp_read, wlp_logWrite]
  intro log _
  obtain ⟨addrs, _, hself⟩ := hstep₂.self
  have hzero : addrs = fun _ => 0 := by
    funext i
    have hcleared := hdrain₂.cleared i fun hfalse => hfalse
    rw [hself] at hcleared
    exact hcleared
  have hcopy : (fs₂.withCopy ip (fun dn => { dn with size := 0 })).inode =
      (fs.withCopy ip Dinode.emptied).inode := by
    funext e
    by_cases heq : e = ip
    · rw [heq, Fs.withCopy, Fs.withCopy, withInode_self, withInode_self, hself, hzero]
      rfl
    · rw [Fs.withCopy, Fs.withCopy, withInode_of_ne _ _ _ heq,
        withInode_of_ne _ _ _ heq, hstep₂.others e heq]
  have hentry : (fs₂.withCopy ip (fun dn => { dn with size := 0 })).inode ip =
      { fs.inode ip with copy := (fs.inode ip).copy.emptied } := by
    rw [hcopy, Fs.withCopy, withInode_self]
  have hinum : (fs.inode ip).inum < fs₂.sb.ninodes := by
    rw [hstep₂.sb]
    exact hwork.inum
  rw [hentry]
  change Fs.Truncated ip fs ((fs₂.withCopy ip (fun dn =>
    { dn with size := 0 })).putInode (fs.inode ip).inum (fs.inode ip).copy.emptied log)
  generalize hfs' : (fs₂.withCopy ip (fun dn => { dn with size := 0 })).putInode
    (fs.inode ip).inum (fs.inode ip).copy.emptied log = fs'
  have hdinode : ∀ inum, inum < fs.sb.ninodes → fs'.dinode inum = fs.emptied ip inum := by
    intro inum hlt
    rw [← hfs', putInode_dinode, Fs.emptied, Function.update_apply]
    exact ite_congr rfl (fun _ => rfl) (fun _ => hstep₂.dinode inum hlt)
  refine ⟨?_, ?_, hdinode, ?_, ?_, ?_⟩
  · rw [← hfs']
    exact hstep₂.sb
  · have hsound : fs'.Sound (fs.emptied ip) := by
      rw [← hfs']
      exact (hstep₂.sound.withInode ip _).putInode _ log hinum
    refine hsound.congr_inodes fun inum hlt => hdinode inum ?_
    rw [← hfs'] at hlt
    exact hstep₂.sb ▸ hlt
  · intro c hc
    rw [← hfs', ← hstep₂.data c hc]
    exact @putInode_disk (fs₂.withCopy ip _) hstep₂.sound.layout _ _ _ _ hinum (hstep₂.sb.symm ▸ hc)
  · rw [← hfs', putInode_inode, hcopy]
  · intro htight
    have hput : fs'.Tight (fs.emptied ip) := by
      rw [← hfs']
      exact @Fs.Tight.putInode (fs₂.withCopy ip _) _ (hstep₂.sound.withInode ip _)
        (hdrain₂.done hwork (fun _ hfalse => hfalse) htight) _ _ log hinum
    refine hput.congr_inodes fun inum hlt => hdinode inum ?_
    rw [← hfs'] at hlt
    exact hstep₂.sb ▸ hlt

end Truncation

/-- An inode in memory looks as it does on the disk. -/
theorem Fs.Ok.seen (hok : fs.Ok) (hpos : 0 < (fs.inode ip).ref)
    (hvalid : (fs.inode ip).valid = true) : fs.seen ip = fs.dinode := by
  rw [Fs.seen, hok.sync ip hpos hvalid, Function.update_eq_self]

theorem Fs.Ok.working (hok : fs.Ok)
    (hpos : 0 < (fs.inode ip).ref) (hvalid : (fs.inode ip).valid = true) : fs.Working ip := by
  refine ⟨?_, hok.inum ip hpos hvalid, hok.type ip hpos hvalid⟩
  rw [hok.seen hpos hvalid]
  exact hok.sound

/-- The state after a reference to `ip` is dropped. -/
def Fs.dropRef (fs : Fs) (ip : InodeRef) : Fs :=
  fs.withInode ip (fun inode => { inode with ref := inode.ref - 1 })

def Dinode.dead (dn : Dinode) : Dinode := { dn.emptied with type := 0 }

def Inode.freed (inode : Inode) : Inode :=
  { inode with
    ref := inode.ref - 1
    locked := false
    valid := false
    copy := inode.copy.dead }

structure Fs.Freed (ip : InodeRef) (fs fs' : Fs) : Prop where
  sb : fs'.sb = fs.sb
  sound : fs'.Sound fs'.dinode
  dinode : ∀ inum, inum < fs.sb.ninodes → inum ≠ (fs.inode ip).inum →
    fs'.dinode inum = fs.dinode inum
  free : (fs'.dinode (fs.inode ip).inum).type = 0
  data : ∀ c, fs.sb.datastart ≤ c → fs'.disk c = fs.disk c
  inode : fs'.inode = (fs.withInode ip Inode.freed).inode
  tidy : fs.Tidy → fs'.Tidy

/-- An inode without a type needs no blocks. -/
theorem Fs.Sound.drop {fs : Fs} {dn : Nat → Dinode} (hsound : fs.Sound dn) (inum : Nat)
    {dead : Dinode} (hdead : dead.type = 0) : fs.Sound (Function.update dn inum dead) := by
  have hlive : ∀ other, (Function.update dn inum dead other).type ≠ 0 →
      Function.update dn inum dead other = dn other := by
    intro other htype
    by_cases heq : other = inum
    · rw [heq, update_self] at htype
      exact (htype hdead).elim
    · exact update_of_ne heq _ _
  refine ⟨hsound.layout, hsound.marked, ?_, ?_⟩
  · refine hsound.owned.mono ?_ (fun _ _ _ hgiven => hgiven)
    rintro ⟨other, slot⟩ ⟨hother, htype, hvalid⟩ _
    have heq := hlive other htype
    simp only [placeAddr]
    rw [heq] at htype ⊢
    exact ⟨⟨hother, htype, hvalid⟩, rfl⟩
  · intro other hother htype
    have heq := hlive other htype
    rw [heq] at htype ⊢
    exact hsound.full other hother htype

variable {fs' : Fs}

/-- The end of `iput` after `itrunc`: the inode has no type any more. -/
theorem Fs.Truncated.freed {change : Inode → Inode} (hinum : (fs.inode ip).inum < fs.sb.ninodes)
    (hsync : (fs.inode ip).copy = fs.dinode (fs.inode ip).inum)
    (htrunc : Fs.Truncated ip (fs.withInode ip change) fs')
    (hchange : ∀ inode, (change inode).inum = inode.inum ∧ (change inode).copy = inode.copy)
    (final : Inode → Inode)
    (hfinal : ∀ inode, final { change inode with copy := inode.copy.dead } = inode.freed)
    (log : Log) : Fs.Freed ip fs (((fs'.withCopy ip (fun dn => { dn with type := 0 })).putInode
      (fs.inode ip).inum (fs.inode ip).copy.dead log).withInode ip final) := by
  have hkeep := hchange (fs.inode ip)
  have hlt : (fs.inode ip).inum < fs'.sb.ninodes := by
    rw [htrunc.sb]
    exact hinum
  have hemptied : ∀ inum, inum ≠ (fs.inode ip).inum →
      (fs.withInode ip change).emptied ip inum = fs.dinode inum := by
    intro inum hne
    rw [Fs.emptied, withInode_self, hkeep.1, update_of_ne hne]
    rfl
  generalize hfs'' : ((fs'.withCopy ip (fun dn => { dn with type := 0 })).putInode
      (fs.inode ip).inum (fs.inode ip).copy.dead log).withInode ip final = fs''
  have hdinode : fs''.dinode = Function.update fs'.dinode (fs.inode ip).inum
      (fs.inode ip).copy.dead := by
    funext inum
    rw [← hfs'', withInode_dinode, putInode_dinode, Function.update_apply]
    rfl
  refine ⟨?_, ?_, ?_, ?_, ?_, ?_, ?_⟩
  · rw [← hfs'']
    exact htrunc.sb
  · rw [hdinode, ← hfs'']
    exact (((htrunc.sound.drop _ rfl).withInode ip _).putInode _ log hlt).withInode ip _
  · intro inum hother hne
    rw [hdinode, update_of_ne hne, htrunc.dinode inum hother, hemptied inum hne]
  · rw [hdinode, update_self]
    rfl
  · intro c hc
    have hold : fs'.disk c = fs.disk c := htrunc.data c hc
    rw [← hfs'', withInode_disk, ← hold]
    exact @putInode_disk (fs'.withCopy ip _) htrunc.sound.layout _ _ _ _ hlt (htrunc.sb.symm ▸ hc)
  · rw [← hfs'']
    funext e
    by_cases heq : e = ip
    · rw [heq, withInode_self, withInode_self, putInode_inode, Fs.withCopy,
        withInode_self, htrunc.inode, Fs.withCopy, withInode_self,
        withInode_self, ← hfinal (fs.inode ip)]
      simp [hkeep.2, Dinode.emptied, Dinode.dead]
    · rw [withInode_of_ne _ _ _ heq, withInode_of_ne _ _ _ heq,
        putInode_inode, Fs.withCopy, withInode_of_ne _ _ _ heq, htrunc.inode,
        Fs.withCopy, withInode_of_ne _ _ _ heq, withInode_of_ne _ _ _ heq]
  · intro htidy
    have hseen : (fs.withInode ip change).seen ip = fs.dinode := by
      rw [Fs.seen, withInode_self, hkeep.1, hkeep.2, hsync, withInode_dinode,
        Function.update_eq_self]
    have hput : fs''.Tight fs'.dinode := by
      rw [← hfs'']
      exact @Fs.Tight.putInode (fs'.withCopy ip _) _ (htrunc.sound.withInode ip _)
        (htrunc.tidy (by rw [hseen]; exact htidy)) _ _ log hlt
    -- the inode had no block left when it lost its type
    rw [Fs.Tidy, hdinode]
    refine hput.unowned _ (Or.inr fun i => ?_)
    rw [htrunc.dinode _ hinum, Fs.emptied, withInode_self, hkeep.1, update_self]
    rfl

/-- The last reference to an unlinked inode whose contents are in memory. -/
def Inode.Doomed (inode : Inode) : Prop :=
  inode.ref = 1 ∧ inode.valid = true ∧ inode.copy.nlink = 0

/-- `iput` drops a reference, or frees the inode with it. -/
theorem ends_iput (hok : fs.Ok) (ip : InodeRef) : ends (iput ip) fs (fun _ fs' =>
      (¬ (fs.inode ip).Doomed ∧ fs' = fs.dropRef ip) ∨
        ((fs.inode ip).Doomed ∧ (fs.inode ip).locked = false ∧ Fs.Freed ip fs fs')) Lawful := by
  unfold iput
  rw [ends_bind, ends_read]
  dsimp only
  rw [ends_bind, Code.when, ends_ite]
  split
  next hdoomed =>
    have hpos : 0 < (fs.inode ip).ref := by omega
    have hwork := hok.working hpos hdoomed.2.1
    rw [ends_bind, acquireSleep, ends_bind, ends_read, ends_ite]
    split
    · exact lawful_sleep
    rename_i hunlocked
    rw [Bool.not_eq_true] at hunlocked
    rw [ends_setInode, ends_bind]
    have hwork' : (fs.withInode ip (fun inode =>
        { inode with locked := true })).Working ip := by
      refine ⟨?_, ?_, ?_⟩
      · rw [Fs.seen, withInode_self, withInode_dinode]
        exact hwork.sound.withInode ip _
      · rw [withInode_self]
        exact hwork.inum
      · rw [withInode_self]
        exact hwork.type
    refine ends_mono (ends_itrunc hwork') ?_
    intro _ fs₁ htrunc
    rw [ends_bind, ends_setCopy, ends_bind]
    refine Quiet.ends (quiet_iupdate ip) ?_
    simp only [iupdate, writeDinode, releaseSleep, ends_bind, ends_setInode,
      wlp_bind, wlp_read, wlp_logWrite]
    intro log _
    refine Or.inr ⟨hdoomed, hunlocked, ?_⟩
    have hentry : (fs₁.withCopy ip (fun dn => { dn with type := 0 })).inode ip =
        { fs.inode ip with locked := true, copy := (fs.inode ip).copy.dead } := by
      rw [Fs.withCopy, withInode_self, htrunc.inode, Fs.withCopy, withInode_self, withInode_self]
      rfl
    rw [withInode_withInode, withInode_withInode, hentry]
    exact htrunc.freed hwork.inum (hok.sync ip hpos hdoomed.2.1) (fun _ => ⟨rfl, rfl⟩) _
      (fun _ => rfl) log
  next hkept =>
    rw [ends_pure, ends_setInode]
    exact Or.inl ⟨hkept, rfl⟩

theorem Fs.Ok.dropRef (hok : fs.Ok) (hpos : 0 < (fs.inode ip).ref) : (fs.dropRef ip).Ok :=
  hok.withInode (Int.sub_nonneg_of_le hpos) (fun _ => hok.only hpos)
    (fun _ hv => ⟨hok.inum ip hpos hv, hok.sync ip hpos hv, hok.type ip hpos hv⟩)

/-- Files other than the one freed keep their contents. -/
theorem Fs.Freed.same (hok : fs.Ok)
    (hfreed : Fs.Freed ip fs fs') (inum : Nat) (hinum : inum < fs.sb.ninodes)
    (hne : inum ≠ (fs.inode ip).inum) (htype : (fs.dinode inum).type ≠ 0) : fs.SameFile fs' inum :=
  ⟨hfreed.dinode inum hinum hne, fun o ho =>
    hok.sound.byte_congr hfreed.data inum o hinum htype ho⟩

theorem Fs.Freed.entry_of_ne {e : InodeRef} (hfreed : Fs.Freed ip fs fs') (hne : e ≠ ip) :
    fs'.inode e = fs.inode e := by
  rw [hfreed.inode, withInode_of_ne _ _ _ hne]

theorem Fs.Freed.entry_self (hfreed : Fs.Freed ip fs fs') : fs'.inode ip = (fs.inode ip).freed := by
  rw [hfreed.inode, withInode_self]

theorem Fs.Freed.ok (hok : fs.Ok) (hdoomed : (fs.inode ip).Doomed) (hfreed : Fs.Freed ip fs fs') :
    fs'.Ok := by
  have hpos : 0 < (fs.inode ip).ref := by
    have hone := hdoomed.1
    omega
  have hgone : (fs'.inode ip).ref = 0 := by
    rw [hfreed.entry_self]
    exact Int.sub_eq_zero_of_eq hdoomed.1
  have hused : ∀ e, 0 < (fs'.inode e).ref → e ≠ ip := by
    intro e he heq
    rw [heq, hgone] at he
    exact Int.lt_irrefl 0 he
  refine hok.change (fs.inode ip).inum hfreed.sb hfreed.sound ?_ ?_ ?_ ?_
    hfreed.dinode (fun inum hlt hne => hfreed.same hok inum hlt hne) ?_
  · intro e
    by_cases heq : e = ip
    · rw [heq, hgone]
    · rw [hfreed.entry_of_ne heq]
      exact hok.ref e
  · intro e he
    have hsame := hfreed.entry_of_ne (hused e he)
    rw [hsame] at he ⊢
    exact ⟨he, rfl⟩
  · intro e he _ hv
    rw [hfreed.entry_of_ne (hused e he)] at hv ⊢
    exact ⟨hv, rfl⟩
  · intro e he heq
    have hne := hused e he
    rw [hfreed.entry_of_ne hne] at he
    exact (hok.only hpos e hne he heq).elim
  · intro htype
    rw [hfreed.free] at htype
    exact absurd htype (by decide)

/-- Dropping a reference is a lookup for everybody else. -/
theorem ends_iput_looks (hok : fs.Ok) {h : InodeRef → Int} (hheld : fs.Held (h + one ip))
    (hpos : 0 < (fs.inode ip).ref) : ends (iput ip) fs (fun _ fs' => Fs.Looks h (-one ip) fs fs' ∧
      fs'.locks = fs.locks) Lawful := by
  refine ends_mono (ends_iput hok ip) ?_
  rintro _ fs' (⟨_, rfl⟩ | ⟨hdoomed, hunlocked, hfreed⟩)
  · refine ⟨(hok.dropRef hpos).looks_withInode h ?_ ?_ (fun _ => rfl) (fun _ hv => hv), ?_⟩
    · simp [Int.sub_eq_add_neg]
    · intro e hne
      simp [one_of_ne hne]
    · exact withInode_locks _ rfl
  · have hnot : ∀ e, 0 < h e → e ≠ ip := by
      rintro e he rfl
      have hle := hheld e
      have hone := hdoomed.1
      simp only [Pi.add_apply, one_self] at hle
      omega
    refine ⟨⟨⟨hfreed.ok hok hdoomed, hfreed.sb, ?_, ?_, ?_, hfreed.tidy⟩, ?_⟩, ?_⟩
    · intro e
      by_cases heq : e = ip
      · rw [heq, hfreed.entry_self, Pi.neg_apply, one_self]
        rfl
      · rw [hfreed.entry_of_ne heq, Pi.neg_apply, one_of_ne heq]
        simp
    · intro e he
      rw [hfreed.entry_of_ne (hnot e he)]
    · intro e he hv
      rwa [hfreed.entry_of_ne (hnot e he)]
    · intro inum hinum htype hkept
      by_cases heq : inum = (fs.inode ip).inum
      · exfalso
        rcases hkept with hlink | ⟨e, he, hsame⟩
        · apply hlink
          rw [heq, ← hok.sync ip hpos hdoomed.2.1]
          exact hdoomed.2.2
        · have hle := hheld e
          have hnn := one_nonneg ip e
          simp only [Pi.add_apply] at hle
          exact hok.only hpos e (hnot e he) (by omega) (by rw [hsame, heq])
      · exact hfreed.same hok inum hinum heq htype
    · funext e
      by_cases heq : e = ip
      · rw [Fs.locks, Fs.locks, heq, hfreed.entry_self, hunlocked]
        rfl
      · rw [Fs.locks, Fs.locks, hfreed.entry_of_ne heq]

end CkptKernel
