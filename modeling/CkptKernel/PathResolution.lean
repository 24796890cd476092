/-
Path names against their reference.  The reference cuts the path at its slashes
and looks the pieces up one after the other in the tree of names; `namei` and
`nameiparent` do the same while they scan the string, and hold no more than two
inodes at a time.
-/
import Mathlib.Data.List.DropRight
import CkptKernel.KernelState
import CkptKernel.NameChanges

namespace CkptKernel

open ByteMem Code

/-- The elements of a path: its longest pieces without '/', cut to `DIRSIZ`
bytes. -/
def components (path : Name) : List Name :=
  ((path.splitOn slash).filter (· ≠ [])).map (·.take DIRSIZ)

section Components

variable {path elem rest name : Name}

theorem components_of_not_mem (hno : slash ∉ elem) (hne : elem ≠ []) :
    components elem = [elem.take DIRSIZ] := by
  rw [components, List.splitOn_eq_singleton hno, List.filter_cons_of_pos (by simpa using hne)]
  rfl

theorem components_append_slash (before after : Name) : components (before ++ slash :: after) =
      components before ++ components after := by
  unfold components
  rw [List.splitOn_append_cons_self, List.filter_append, List.map_append]

theorem components_slash (path : Name) : components (slash :: path) = components path :=
  components_append_slash [] path

/-- Leading slashes do not matter. -/
theorem components_dropWhile (path : Name) :
    components (path.dropWhile (· = slash)) = components path := by
  induction path with
  | nil => rfl
  | cons c path ih =>
    by_cases hslash : c = slash
    · subst hslash
      rw [List.dropWhile_cons_of_pos (by simp), ih, components_slash]
    · rw [List.dropWhile_cons_of_neg (by simpa using hslash)]

/-- What is left behind an element starts with a slash. -/
theorem dropWhile_cases (path : Name) : path.dropWhile (· ≠ slash) = [] ∨
      ∃ after, path.dropWhile (· ≠ slash) = slash :: after := by
  cases hrest : path.dropWhile (· ≠ slash) with
  | nil => exact Or.inl rfl
  | cons c after =>
    have hhead := List.head?_dropWhile_not (· ≠ slash) path
    rw [hrest] at hhead
    have hslash : c = slash := by simpa using hhead
    exact Or.inr ⟨after, by rw [hslash]⟩

/-- `skipelem` takes one element off the path. -/
theorem components_skipelem : components path = match skipelem path with
      | none => []
      | some (name, rest) => name :: components rest := by
  rw [← components_dropWhile path]
  unfold skipelem
  dsimp only
  generalize hstart : path.dropWhile (· = slash) = start
  split
  next hnone =>
    split at hnone
    next hnil =>
      rw [hnil]
      rfl
    · cases hnone
  next name rest hsome =>
    split at hsome
    · cases hsome
    rename_i hne
    cases hsome
    have hno : slash ∉ start.takeWhile (· ≠ slash) := by
      intro hmem
      have hkept := List.mem_takeWhile_imp hmem
      simp at hkept
    have hfirst : start.takeWhile (· ≠ slash) ≠ [] := by
      cases start with
      | nil => exact (hne rfl).elim
      | cons c start =>
        have hhead := List.head?_dropWhile_not (· = slash) path
        rw [hstart] at hhead
        have hother : c ≠ slash := by simpa using hhead
        rw [List.takeWhile_cons_of_pos (by simpa using hother)]
        exact List.cons_ne_nil _ _
    have hsplit := @List.takeWhile_append_dropWhile _ (· ≠ slash) start
    rw [components_dropWhile]
    rcases dropWhile_cases start with hend | ⟨after, hafter⟩
    · rw [hend, List.append_nil] at hsplit
      rw [hend, hsplit, components_of_not_mem (hsplit ▸ hno) hne]
      rfl
    · rw [hafter] at hsplit ⊢
      rw [components_slash]
      conv_lhs => rw [← hsplit]
      rw [components_append_slash, components_of_not_mem hno hfirst]
      rfl

/-- The path behind an element is empty or goes on with an element. -/
theorem skipelem_rest (hskip : skipelem path = some (name, rest)) :
    rest = [] ↔ components rest = [] := by
  refine ⟨fun hnil => by rw [hnil]; rfl, fun hnone => ?_⟩
  rw [components_skipelem] at hnone
  have hstop : rest.dropWhile (· = slash) = rest := by
    unfold skipelem at hskip
    dsimp only at hskip
    split at hskip
    · cases hskip
    · cases hskip
      exact List.dropWhile_idempotent _ _
  unfold skipelem at hnone
  dsimp only at hnone
  rw [hstop] at hnone
  by_contra hne
  rw [if_neg hne] at hnone
  cases hnone

end Components

namespace View

variable {v : View} {x y : Nat} {names : List Name}

/-- Look the names up one after the other, from inode `x`. -/
def reach (v : View) : Nat → List Name → Option Nat
  | x, [] => some x
  | x, name :: names =>
    if (v x).kind = T_DIR then
      (v.lookup x name).bind fun e => v.reach e.inum names
    else none

/-- Some step is not a directory or has no such entry. -/
def Stuck (v : View) (x : Nat) (names : List Name) : Prop :=
  ∃ before name after y, names = before ++ name :: after ∧
    v.reach x before = some y ∧ ((v y).kind ≠ T_DIR ∨ v.lookup y name = none)

/-- The directory that all names but the last lead to, and the last name. -/
def reachParent (v : View) (x : Nat) (names : List Name) : Option (Nat × Name) :=
  names.getLast?.bind fun last =>
    (v.reach x names.dropLast).bind fun d =>
      if (v d).kind = T_DIR then some (d, last) else none

theorem reach_eq_none_iff : v.reach x names = none ↔ v.Stuck x names := by
  induction names generalizing x with
  | nil =>
    refine ⟨fun hnone => (Option.some_ne_none x hnone).elim, ?_⟩
    rintro ⟨before, name, after, y, hnil, _⟩
    cases before <;> cases hnil
  | cons name names ih =>
    constructor
    · intro hnone
      unfold reach at hnone
      split at hnone
      next hdir =>
        cases hsome : v.lookup x name with
        | none => exact ⟨[], name, names, x, rfl, rfl, Or.inr hsome⟩
        | some e =>
          rw [hsome] at hnone
          obtain ⟨before, name', after, y, rfl, hreach, hstuck⟩ :=
            ih.mp hnone
          refine ⟨name :: before, name', after, y, rfl, ?_, hstuck⟩
          rw [reach, if_pos hdir, hsome]
          exact hreach
      next hnot =>
        exact ⟨[], name, names, x, rfl, rfl, Or.inl hnot⟩
    · rintro ⟨before, name', after, y, heq, hreach, hstuck⟩
      unfold reach
      cases before with
      | nil =>
        cases heq
        cases hreach
        rcases hstuck with hnot | hnone
        · rw [if_neg hnot]
        · rw [hnone]
          split <;> rfl
      | cons first before =>
        cases heq
        unfold reach at hreach
        split
        next hdir =>
          rw [if_pos hdir] at hreach
          cases hsome : v.lookup x name with
          | none => rfl
          | some e =>
            rw [hsome] at hreach
            exact ih.mpr ⟨before, name', after, y, rfl, hreach, hstuck⟩
        · rfl

theorem reachParent_cons (name : Name) (hne : names ≠ []) :
    v.reachParent x (name :: names) = if (v x).kind = T_DIR then
      (v.lookup x name).bind fun e => v.reachParent e.inum names else none := by
  unfold reachParent
  rw [List.getLast?_cons_of_ne_nil hne, List.dropLast_cons_of_ne_nil hne]
  conv_lhs => unfold reach
  cases hlast : names.getLast? with
  | none => exact (hne (List.getLast?_eq_none_iff.mp hlast)).elim
  | some last =>
    dsimp only [Option.bind_some]
    split
    · rw [Option.bind_assoc]
    · rfl

/-- The walk along the string visits the elements of the path in turn. -/
theorem walk_eq_reach {fuel : Nat} {path : Name} (hfuel : path.length < fuel) :
    v.walk false fuel x path = (v.reach x (components path)).map fun y => (y, []) := by
  induction fuel generalizing x path with
  | zero => omega
  | succ fuel ih =>
    rw [components_skipelem]
    unfold walk
    cases hskip : skipelem path with
    | none => rfl
    | some next =>
      obtain ⟨name, rest⟩ := next
      have hshort := skipelem_length hskip
      dsimp only [reach]
      simp only [Bool.false_eq_true, false_and, if_false, ne_eq, ite_not]
      split
      · cases v.lookup x name with
        | none => rfl
        | some e => exact ih (by omega)
      · rfl

theorem walk_eq_reachParent {fuel : Nat} {path : Name} (hfuel : path.length < fuel) :
    v.walk true fuel x path = v.reachParent x (components path) := by
  induction fuel generalizing x path with
  | zero => omega
  | succ fuel ih =>
    rw [components_skipelem]
    unfold walk
    cases hskip : skipelem path with
    | none => rfl
    | some next =>
      obtain ⟨name, rest⟩ := next
      have hshort := skipelem_length hskip
      have hlast := skipelem_rest hskip
      dsimp only
      simp only [true_and, ne_eq, ite_not]
      by_cases hnil : rest = []
      · rw [hlast.mp hnil, if_pos hnil]
        rfl
      rw [reachParent_cons name (fun hnone => hnil (hlast.mpr hnone)), if_neg hnil]
      split
      · cases v.lookup x name with
        | none => rfl
        | some e => exact ih (by omega)
      · rfl

end View

/-- Whoever is returned gains one reference, and nobody else does. -/
def Fs.Gains (found : Option InodeRef) (fs fs' : Fs) : Prop :=
  ∀ e, (fs'.inode e).ref = (fs.inode e).ref + if found = some e then 1 else 0

/-- Why a path lookup may not return: it waits for a lock that somebody has,
or there are not two free entries in the table. -/
def Fs.Blocked (fs : Fs) (reason : Stop) : Prop :=
  (reason = .sleep ∧ ∃ e, fs.locks e = true) ∨ (reason = .panic "iget: no inodes" ∧
      ∀ e e', fs.refs e = 0 → fs.refs e' = 0 → e = e')

/-- A file system between calls, whose directories are a graph of inodes. -/
structure Fs.Graph (fs : Fs) : Prop where
  settled : fs.Settled
  closed : fs.view.Closed
  root : (fs.view ROOTINO).kind ≠ 0
  whole : fs.Whole

def Fs.startAt (fs : Fs) (cwd : InodeRef) (path : Name) : Nat :=
  if path.head? = some slash then ROOTINO else (fs.inode cwd).inum

section Resolution

variable {fs fs' : Fs} {cwd dp : InodeRef} {d : Nat}

theorem startOf_some (path : Name) : fs.startOf (some cwd) path = some (fs.startAt cwd path) := by
  unfold Fs.startOf Fs.startAt
  split <;> rfl

theorem Fs.Graph.walks (hgraph : fs.Graph) : Fs.Walks fs.Blocked fs.refs fs := by
  have hshel := hgraph.settled.shelters
  refine ⟨?_, Or.inr ⟨hshel, hgraph.closed, hgraph.root⟩,
    Or.inr ⟨hshel, hgraph.whole⟩, ?_, Or.inr hshel⟩
  · by_cases hidle : ∃ e, fs.locks e = true
    · exact Or.inl (Or.inl ⟨rfl, hidle⟩)
    · refine Or.inr fun e => ?_
      rw [← Bool.not_eq_true]
      exact fun hlocked => hidle ⟨e, hlocked⟩
  · by_cases hfew : ∀ e e', fs.refs e = 0 → fs.refs e' = 0 → e = e'
    · exact Or.inl (Or.inr ⟨rfl, hfew⟩)
    refine Or.inr ⟨fun _ => rfl, fun e => ?_⟩
    -- of two free entries one is another than `e`
    simp only [not_forall] at hfew
    obtain ⟨a, b, ha, hb, hne⟩ := hfew
    by_cases heq : a = e
    · exact ⟨b, fun hbe => hne (heq.trans hbe.symm), hb⟩
    · exact ⟨a, heq, ha⟩

variable (hgraph : fs.Graph) (hcwd : 0 < fs.refs cwd)
include hgraph hcwd

/-- Where `namex` leads, with the references it leaves behind. -/
theorem ends_namex_graph (path : Name) (parent : Bool) :
    ends (namex (some cwd) path parent) fs (fun found fs' =>
      found.map (fun result => ((fs'.inode result.1).inum, result.2)) =
        fs.view.walk parent (path.length + 1) (fs.startAt cwd path) path ∧
      Fs.Gains (found.map Prod.fst) fs fs') fs.Blocked := by
  have hok := hgraph.settled.ok
  have hlive := hgraph.settled.alive cwd hcwd
  have hheld : fs.Held fs.refs := fun _ => le_rfl
  have hcwdOk : fs.CwdOk (some cwd) := by
    rintro ip ⟨⟩
    exact ⟨hcwd, lt_of_view_kind hlive⟩
  have hshel := hgraph.settled.shelters
  refine ends_mono (ends_namex_of hok hok.ref hheld hgraph.walks hcwdOk ?_
    (fun hnone => by cases hnone) path parent) ?_
  · rintro ip ⟨⟩
    exact Or.inr ⟨hshel, hlive⟩
  rintro found fs' ⟨hleads, hagrees⟩
  obtain ⟨_, hfound⟩ := hagrees hshel
  rw [Fs.resolve, startOf_some] at hfound
  refine ⟨hfound, fun e => ?_⟩
  rcases hleads with ⟨rfl, hmiss⟩ | ⟨ip, name, rfl, hnamed⟩
  · rw [hmiss.looks.ref]
    rfl
  · rw [hnamed.looks.ref, one]
    simp only [Option.map_some, Option.some.injEq, eq_comm]

end Resolution

section Link

variable {p : Entry → Bool} {entries : List Entry} {k : Nat} {e : Entry}

/-- A search passes over an entry that is written where it found nothing. -/
theorem find?_putEntry_of_neg (hnew : p e = false)
    (hold : ∀ e', entries[k]? = some e' → p e' = false) :
    (putEntry k e entries).find? p = entries.find? p := by
  have hgone : entries[k]?.toList.find? p = none := by
    refine List.find?_eq_none.mpr fun e' hmem => ?_
    rw [hold e' (Option.mem_toList.mp hmem)]
    exact Bool.false_ne_true
  conv_rhs => rw [split_at k entries]
  rw [putEntry, List.find?_append, List.find?_append, List.find?_append,
    List.find?_cons_of_neg (by rw [hnew]; exact Bool.false_ne_true), hgone, Option.none_or]

theorem find?_putEntry_of_pos (hnew : p e = true) (hold : entries.find? p = none) :
    (putEntry k e entries).find? p = some e := by
  rw [List.find?_eq_none] at hold
  have hbefore : (entries.take k).find? p = none :=
    List.find?_eq_none.mpr fun e' hmem => hold e' (List.mem_of_mem_take hmem)
  rw [putEntry, List.find?_append, hbefore, List.find?_cons_of_pos hnew, Option.none_or]

variable {v : View} {d inum : Nat} {name : Name}

/-- The lookups in a directory after a name is entered. -/
theorem View.lookup_enter (hroom : View.Room (v d) k (cname name))
    (hpos : inum ≠ 0) (other : Name) : (v.enter d k ⟨cname name, inum⟩).lookup d other =
      if cname other = cname name then some ⟨cname name, inum⟩ else v.lookup d other := by
  have hentries : (v.enter d k ⟨cname name, inum⟩ d).entries =
      putEntry k ⟨cname name, inum⟩ (v d).entries := by
    rw [View.enter, Function.update_self]
    rfl
  rw [View.lookup, hentries]
  split
  next hsame =>
    refine find?_putEntry_of_pos (by simp [hpos, hsame]) ?_
    refine List.find?_eq_none.mpr fun e hmem hmatch => ?_
    rw [decide_eq_true_eq, hsame] at hmatch
    exact hroom.fresh e hmem hmatch.1 hmatch.2
  next hother =>
    refine find?_putEntry_of_neg (by simp [Ne.symm hother]) fun e hsome => ?_
    simp [hroom.empty e hsome]

end Link

/-- The table is full. -/
def Fs.Crowded (fs : Fs) (reason : Stop) : Prop :=
  reason = .panic "iget: no inodes" ∧ ∀ e, fs.refs e ≠ 0

/-- The inodes that lookups in a directory find. -/
def Fs.Answers (fs : Fs) (dp : InodeRef) (answer : Name → Option Nat) : Prop :=
  ∀ name, ends (dirlookup dp name) fs (fun found fs' =>
    found.map (fun entry => (fs'.inode entry.1).inum) = answer name) fs.Crowded

section Dirlink

variable {fs fs' : Fs} {dp : InodeRef} {d inum : Nat} {name : Name}

theorem Fs.Readable.answers (hread : fs.Readable dp d) (hdir : (fs.inode dp).copy.type = T_DIR)
    (hwhole : DIRENT ∣ (fs.inode dp).copy.size.toNat) :
    fs.Answers dp fun name => (fs.view.lookup d name).map Entry.inum := by
  intro name
  refine ends_mono (ends_dirlookup_of (fun hcut => (hcut hwhole).elim)
    (fun hfull => ⟨rfl, hfull⟩) hread (fun hno => (hno hdir).elim) name) ?_
  rintro found fs' ⟨_, ⟨rfl, _, hnone⟩ | ⟨ip, k, e, rfl, hsome, hrun⟩⟩
  · dsimp only
    rw [hnone]
    rfl
  · dsimp only
    rw [hsome, Option.map_some, Option.map_some, (iget_self hrun).1]

variable (hok : fs.Ok) (hloaded : fs.Loaded dp)
include hok hloaded

/-- A successful `dirlink` is one entry, written to a free place. -/
theorem wlp_dirlink_true (hpos : inum ≠ 0) (hlt : inum < 2 ^ 16) :
    wlp (dirlink dp name inum) fs (fun linked fs' => linked = true →
      (fs.inode dp).copy.type = T_DIR ∧ ∃ k, View.Room (fs.view (fs.inode dp).inum) k (cname name) ∧
        fs'.view = fs.view.enter (fs.inode dp).inum k ⟨cname name, inum⟩ ∧
        Fs.Wrote dp (.kernel (dirent name inum)) (DIRENT * k) DIRENT DIRENT fs fs') := by
  have hlooks : fs.Held fs.refs := fun _ => le_rfl
  unfold dirlink
  refine wlp_seq (wlp_of_ends (ends_dirlookup hok hlooks hloaded name)) ?_
  rintro found fs₁ ⟨hdir, ⟨rfl, rfl, hnone⟩ | ⟨ip, off, rfl, _⟩⟩
  · dsimp only
    rw [wlp_bind, wlp_read]
    refine wlp_seq (wlp_dirlinkFrom hok hloaded hdir
      ((fs₁.inode dp).copy.size.toNat + 1) 0 (by omega)) ?_
    rintro off fs₂ ⟨rfl, rfl⟩
    rw [List.drop_zero, Nat.zero_add]
    refine wlp_seq (wlp_writei (hok.working hloaded.ref hloaded.valid) _ _ (by decide)) ?_
    intro written fs₃ hwritten
    refine (wlp_pure _).mpr fun hwhole =>
      ⟨hdir, fs₂.view.place (fs₂.inode dp).inum, ?_⟩
    rcases hwritten with ⟨rfl, _⟩ | ⟨t, rfl, hwrote⟩
    · cases of_decide_eq_true hwhole
    have ht : t = DIRENT := Option.some.inj (of_decide_eq_true hwhole)
    subst ht
    have hkind : (fs₂.view (fs₂.inode dp).inum).kind = T_DIR := by
      rw [hok.view_node hloaded, Dinode.node_kind, hdir]
    rcases hwrote.view hok hloaded hdir (Buffer.kernel_total _) with
      ⟨hnothing, _⟩ | ⟨_, hk, hview⟩
    · exact absurd hnothing (by decide)
    · have hentry : entryOf (Buffer.kernel (dirent name inum)).byte =
          ⟨cname name, inum⟩ := entryOf_dirent name hpos hlt
      rw [hentry] at hview
      exact ⟨⟨hkind, hk, fun _ => place_empty, View.fresh_of_lookup hnone⟩, hview, hwrote⟩
  · dsimp only
    rw [wlp_bind]
    exact fun _ _ _ => (wlp_pure _).mpr fun hno => by cases hno

/-- The directory can be read after the write. -/
theorem Fs.Wrote.readable {buf : Buffer} {off n t : Nat} (hwrote : Fs.Wrote dp buf off n t fs fs') :
    fs'.Readable dp (fs.inode dp).inum := by
  have hinum := hloaded.inum hok
  obtain ⟨size, addrs, hself⟩ := hwrote.self
  have htype : (fs'.dinode (fs.inode dp).inum).type ≠ 0 := by
    rw [hwrote.sync, hself]
    exact hloaded.type hok
  have hlt : (fs.inode dp).inum < fs'.sb.ninodes := hwrote.sb ▸ hinum
  refine ⟨?_, ?_⟩
  · rw [view_of_lt hlt, hwrote.sync]
  · rw [← hwrote.sync]
    exact hwrote.sound.full _ hlt htype

/-- Lookups after a successful `dirlink` find the new inode under the names
that agree with its name, and what they found before under all others. -/
theorem answers_dirlink (hwhole : fs.Whole) (hpos : 0 < inum) (hlt : inum < 2 ^ 16)
    (hrun : dirlink dp name inum fs = .ok (true, fs')) :
    ∃ before, fs.Answers dp before ∧ fs'.Answers dp fun other =>
      if cname other = cname name then some inum else before other := by
  obtain ⟨hdir, k, hroom, hview, hwrote⟩ :=
    wlp_dirlink_true hok hloaded (Nat.ne_of_gt hpos) hlt _ _ hrun rfl
  have hsize : DIRENT ∣ (fs.inode dp).copy.size.toNat := by
    rw [hloaded.sync hok] at hdir ⊢
    exact hwhole _ (hloaded.inum hok) hdir
  have hdir' : (fs'.inode dp).copy.type = T_DIR := by
    obtain ⟨size, addrs, hself⟩ := hwrote.self
    rw [hself]
    exact hdir
  have hsize' : DIRENT ∣ (fs'.inode dp).copy.size.toNat := by
    rw [hwrote.size]
    rcases Nat.le_total (fs.inode dp).copy.size.toNat (DIRENT * k + DIRENT) with hgrow | hkeep
    · rw [Nat.max_eq_right hgrow]
      exact ⟨k + 1, rfl⟩
    · rw [Nat.max_eq_left hkeep]
      exact hsize
  refine ⟨_, (hok.readable hloaded).answers hdir hsize, ?_⟩
  have hanswers := (hwrote.readable hok hloaded).answers hdir' hsize'
  intro other
  refine ends_mono (hanswers other) fun found fs'' hfound => ?_
  rw [hfound, hview]
  dsimp only
  rw [View.lookup_enter hroom (Nat.ne_of_gt hpos)]
  split <;> rfl

end Dirlink

/-- `namei` and `nameiparent` lead where their reference does, whatever they
find gains the one reference, and a new name is found under the names that
agree with it. -/
theorem path_resolution {fs : Fs} (hgraph : fs.Graph) {cwd : InodeRef}
    (hcwd : 0 < fs.refs cwd) (path : Name) : ends (namei (some cwd) path) fs (fun found fs' =>
        found.map (fun ip => (fs'.inode ip).inum) =
          fs.view.reach (fs.startAt cwd path) (components path) ∧
        (found = none ↔ fs.view.Stuck (fs.startAt cwd path) (components path)) ∧
        Fs.Gains found fs fs') fs.Blocked ∧ ends (nameiparent (some cwd) path) fs (fun found fs' =>
        found.map (fun result => ((fs'.inode result.1).inum, result.2)) =
          fs.view.reachParent (fs.startAt cwd path) (components path) ∧
        Fs.Gains (found.map Prod.fst) fs fs') fs.Blocked ∧
      ∀ {before after : Fs} {dp : InodeRef} {name : Name} {inum : Nat},
        before.Ok → before.Loaded dp → before.Whole → 0 < inum →
        inum < 2 ^ 16 → dirlink dp name inum before = .ok (true, after) →
        ∃ answer, before.Answers dp answer ∧ after.Answers dp fun other =>
          if cname other = cname name then some inum else answer other := by
  refine ⟨?_, ?_, answers_dirlink⟩
  · unfold namei
    refine ends_seq (ends_namex_graph hgraph hcwd path false) ?_
    rintro found fs' ⟨hfound, hgains⟩
    rw [View.walk_eq_reach (Nat.lt_succ_self _)] at hfound
    have hinum : (found.map Prod.fst).map (fun ip => (fs'.inode ip).inum) =
        fs.view.reach (fs.startAt cwd path) (components path) := by
      have hfirst := congrArg (Option.map Prod.fst) hfound
      rw [Option.map_map, Option.map_map] at hfirst
      rw [Option.map_map]
      exact hfirst.trans Option.map_id'
    refine (ends_pure _).mpr ⟨hinum, ?_, hgains⟩
    rw [← View.reach_eq_none_iff, ← hinum]
    simp only [Option.map_eq_none_iff]
  · rw [← View.walk_eq_reachParent (Nat.lt_succ_self _)]
    exact ends_namex_graph hgraph hcwd path true

/-- A root directory with the file `c` in it, in use by two processes. -/
def pathFs : Fs :=
  smallFs (fun i => if i = 0 then 0xff else 0) 3 (fun _ => 0xAA)

theorem pathFs_view_kind {x : Nat} (hkind : (pathFs.view x).kind ≠ 0) : x = 1 ∨ x = 2 := by
  have hx : x < 16 := lt_of_view_kind hkind
  have hall : ∀ x, x < 16 → (pathFs.view x).kind ≠ 0 → x = 1 ∨ x = 2 := by
    decide +kernel
  exact hall x hx hkind

theorem pathFs_graph : pathFs.Graph := by
  have hok : pathFs.Ok := smallFs_ok (by decide) (by decide)
  have hroot : (pathFs.view 1).kind ≠ 0 := by decide +kernel
  have hentries : ∀ e ∈ (pathFs.view 1).entries, (pathFs.view e.inum).kind ≠ 0 := by
    decide +kernel
  have hlinks : (pathFs.view 1).links ≠ 0 ∧ (pathFs.view 2).links ≠ 0 := by
    decide +kernel
  refine ⟨⟨hok, ?_, ?_, by decide +kernel, by decide⟩, ?_, hroot, ?_⟩
  · intro x hkind hzero
    rcases pathFs_view_kind hkind with rfl | rfl
    · exact (hlinks.1 hzero).elim
    · exact (hlinks.2 hzero).elim
  · have hused : ∀ e, 0 < pathFs.refs e → (pathFs.inode e).inum = 1 := by
      decide +kernel
    intro e he
    rw [hused e he]
    exact hroot
  · intro d hdir e hmem hne
    rcases pathFs_view_kind (x := d) (by rw [hdir]; decide) with rfl | rfl
    · exact hentries e hmem
    · exact absurd hdir (by decide +kernel)
  · have hsizes : ∀ x, x < 16 → (pathFs.dinode x).type = T_DIR →
        DIRENT ∣ (pathFs.dinode x).size.toNat := by
      decide +kernel
    exact hsizes

/-- "../c" is the file; "c/..", with the same elements the other way round, is
not there. -/
theorem path_resolution_twoElements : pathFs.Graph ∧ 0 < pathFs.refs 0 ∧
    ends (namei (some 0) [46, 46, slash, 99]) pathFs (fun found fs' =>
      found.map (fun ip => (fs'.inode ip).inum) = some 2 ∧
      Fs.Gains found pathFs fs') pathFs.Blocked ∧
    ends (namei (some 0) [99, slash, 46, 46]) pathFs (fun found fs' =>
      found = none ∧ Fs.Gains found pathFs fs') pathFs.Blocked := by
  have hcwd : 0 < pathFs.refs 0 := by decide
  refine ⟨pathFs_graph, hcwd, ?_, ?_⟩
  · refine ends_mono (path_resolution pathFs_graph hcwd _).1 ?_
    rintro found fs' ⟨hfound, _, hgains⟩
    refine ⟨hfound.trans ?_, hgains⟩
    decide +kernel
  · refine ends_mono (path_resolution pathFs_graph hcwd _).1 ?_
    rintro found fs' ⟨hfound, _, hgains⟩
    have hnone : pathFs.view.reach (pathFs.startAt 0 [99, slash, 46, 46])
        (components [99, slash, 46, 46]) = none := by decide +kernel
    exact ⟨Option.map_eq_none_iff.mp (hfound.trans hnone), hgains⟩

/-- All elements of "c/x" but the last lead to a file, and `nameiparent` does
not return it. -/
theorem nameiparent_below_file : pathFs.Graph ∧ 0 < pathFs.refs 0 ∧
    components [99, slash, 120] = [[99], [120]] ∧
    pathFs.view.reach (pathFs.startAt 0 [99, slash, 120]) [[99]] = some 2 ∧
    ∃ fs', nameiparent (some 0) [99, slash, 120] pathFs = .ok (none, fs') := by
  refine ⟨pathFs_graph, by decide, by decide, by decide +kernel, ?_⟩
  have hnone : wp (nameiparent (some 0) [99, slash, 120]) pathFs (fun found _ => found = none) := by
    decide +kernel
  obtain ⟨_, fs', hrun, rfl⟩ := hnone
  exact ⟨fs', hrun⟩

end CkptKernel
