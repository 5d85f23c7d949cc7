import TsOs.Fat.Completed
import TsOs.Fat.Subtrees
import TsOs.Library.Transition

/-!
# Histories of a volume

The operations of a user on paths: creating, writing and deleting. Each of them that
completes keeps the volume in good order, so that every volume that a history makes out of
a formatted one holds a tree. On such volumes a creation adds a node to the tree, a
deletion removes a subtree, and all the other paths resolve as before.
-/

namespace TsOs.Fat
open ByteMemory Transition

variable {v : Fat16Volume} {d d' : Disk} {t : Tree} {fuel : Nat} {path : List UInt8} {flag : Flags}

/-! ## Opening a path that may be created -/

section Create

variable (hv : Aligned v) (h : Represents v d t) (hfuel : 2 ^ 16 ≤ fuel)
include hv h hfuel

/-- Opening the directory of a path gives a fresh handle on it, or nothing. -/
theorem Represents.fatOpenExisting_parent {base : List UInt8} (habs : base.head? = some slash)
    (hcs : ∀ c ∈ components base, Ordinary c) (hdirs : t.DirsAlong [] (pathKeys base))
    (hdir : ∀ n, t (pathKeys base) = some n → n.isDir = true) :
    fatOpenExisting v fuel base Flags.none d = (.ok none, d) ∨
      ∃ f, fatOpenExisting v fuel base Flags.none d = (.ok (some f), d) ∧ OnNode v d t (pathKeys base) f := by
  by_cases hnil : components base = []
  · right
    have hks : pathKeys base = [] := by rw [pathKeys, hnil, List.map_nil]
    obtain ⟨f, hopen, hstart⟩ : ∃ f, fatOpenExisting v fuel base Flags.none d = (.ok (some f), d) ∧
        f.dirent.startCluster = 0 := by
      by_cases hbase : base = [slash]
      · rw [hbase]
        exact ⟨_, fatOpenExisting_root v d fuel rfl, rfl⟩
      · refine ⟨rootHandle Flags.none, ?_, rfl⟩
        unfold fatOpenExisting
        rw [FatM.bind_ok (h.fat16Find_run hv hfuel hdirs Flags.none hcs hbase), hks]
        rfl
    have hat := (fatOpenExisting_rootBlock hv.toGeometry (congrArg Prod.fst hopen) hstart).1
    exact ⟨f, hopen, Or.inl ⟨hks, hat⟩⟩
  · have hp : OrdinaryPath base := ⟨habs, hnil, hcs⟩
    have hks := hp.pathKeys_ne_nil
    cases hn : t (pathKeys base) with
    | none => exact Or.inl (h.fatOpenExisting_none hv hfuel hdirs Flags.none hp hn)
    | some p =>
        right
        have hrun := h.fatOpenExisting_run hv hfuel hdirs Flags.none hp rfl
        have hsome : (walk v d t [] (rootHandle Flags.none) (pathKeys base)).isSome := walk_isSome h hn
        obtain ⟨f, hw⟩ := Option.isSome_iff_exists.mp hsome
        obtain ⟨m, g, hm, rfl, -, hoff⟩ := walk_eq_some hks hw
        obtain rfl := Option.some.inj (hn.symm.trans hm)
        rw [hw] at hrun
        refine ⟨_, hrun, Or.inr ⟨p, hn, hdir p hn, ?_, ?_, ?_⟩⟩
        · rw [Fat16File.place_dirent]
        · rw [Fat16File.place_currentCluster, Fat16File.place_dirent]
        · rw [Fat16File.place_byteOffset, hoff]
          rfl

/-- A call that may create and returns leaves the disk alone, or adds a node to the tree. -/
theorem Represents.fatOpen_ok (hpos : 0 < v.rootSectors) (hp : OrdinaryPath path)
    (hdirs : t.DirsAlong [] (pathKeys path)) (hcreate : flag.create = true) {r : Option Fat16File}
    (hrun : fatOpen v fuel path flag d = (.ok r, d')) (hroom : RoomLeft v d') :
    d' = d ∧ (t (pathKeys path) = none → r = none) ∨
      t (pathKeys path) = none ∧ ∃ t', Created v d d' t t' (pathKeys path) flag.dir := by
  cases hn : t (pathKeys path) with
  | some n =>
      obtain ⟨f, i, hopen, -⟩ := h.fatOpenExisting_some hv hfuel hdirs { flag with create := false } hp hn
      rw [fatOpen_existing hcreate (congrArg Prod.fst hopen)] at hrun
      exact Or.inl ⟨(congrArg Prod.snd hrun).symm, fun hnone => absurd hnone (by simp)⟩
  | none =>
      have hnew := h.fatOpenExisting_none hv hfuel hdirs { flag with create := false } hp hn
      rcases fatOpen_absent hcreate (congrArg Prod.fst hnew) hrun with
        ⟨hd, hr, -⟩ | ⟨base, name, f, u, g, hbase, hname, hparent, hmade, -⟩
      · exact Or.inl ⟨hd, fun _ => hr⟩
      · obtain ⟨rest, rfl⟩ : ∃ rest, path = slash :: rest := by
          obtain ⟨x, rest, rfl⟩ := List.exists_cons_of_ne_nil (show path ≠ [] from fun hnil => by
            have := hp.absolute
            rw [hnil] at this
            exact absurd this (by simp))
          exact ⟨rest, by rw [Option.some.inj hp.absolute]⟩
        obtain ⟨base', name', hbase', hname', hhead, hcases⟩ := split_path hp.ne_nil
        obtain rfl := Option.some.inj (hbase.symm.trans hbase')
        obtain rfl := Option.some.inj (hname.symm.trans hname')
        split at hcases
        next =>
          -- The directory has the same components, so it is not there either.
          have hks : pathKeys base = pathKeys (slash :: rest) := by rw [pathKeys, hcases, pathKeys]
          have hp' : OrdinaryPath base := ⟨hhead, hcases ▸ hp.ne_nil, hcases ▸ hp.ordinary⟩
          rw [← hks] at hdirs hn
          have hnone := h.fatOpenExisting_none hv hfuel hdirs Flags.none hp' hn
          rw [hnone] at hparent
          exact absurd (congrArg Prod.fst hparent) (by simp)
        next =>
          have hks : pathKeys (slash :: rest) = pathKeys base ++ [key name] := by
            rw [pathKeys, hcases, List.map_append, List.map_singleton, pathKeys]
          have hord : ∀ c ∈ components base, Ordinary c := fun c hc =>
            hp.ordinary c (hcases ▸ List.mem_append_left _ hc)
          have hnm : Ordinary name := hp.ordinary name (hcases ▸ List.mem_append_right _ (by simp))
          have hdirs' : t.DirsAlong [] (pathKeys base) := by
            intro ks₁ ks₂ heq hne₁ hne₂
            refine hdirs ks₁ (ks₂ ++ [key name]) ?_ hne₁ (by simp)
            rw [hks, heq, List.append_assoc]
          have hdir : ∀ n, t (pathKeys base) = some n → n.isDir = true := by
            intro n hn
            by_cases hnil : pathKeys base = []
            · exact absurd hnil (h.path_ne_nil hn)
            · exact hdirs (pathKeys base) [key name] hks hnil (by simp) n hn
          rw [hks] at hn ⊢
          rcases h.fatOpenExisting_parent hv hfuel hhead hord hdirs' hdir with hnone | ⟨g, hopen, hg⟩
          · rw [hnone] at hparent
            exact absurd (congrArg Prod.fst hparent) (by simp)
          · obtain rfl := Option.some.inj (FatM.ok_inj (hopen.symm.trans hparent))
            exact Or.inr ⟨rfl, h.fatCreateFile_ok hv hpos hg hnm hn hmade hroom⟩

end Create

/-! ## Writing to a file -/

/-- A write that completes makes the chain longer and records a size. -/
theorem fatWriteFile_ok (hv : Aligned v) {f : Fat16File} {l : List Nat} {i : Nat} {data : List UInt8}
    {r : Int × Fat16File} (h : Writable v d f l i) (hrun : fatWriteFile v f data d = (.ok r, d'))
    (hroom : RoomLeft v d') :
    ∃ l' d₁ size, Extends v f.dirent.startCluster l l' d d₁ ∧
      d' = writeEnt d₁ (direntAddr v f + direntSize * i) (f.dirent.setFileSize size) := by
  have hg := hv.toGeometry
  have hall := hrun
  unfold fatWriteFile at hrun
  rw [h.regular, h.mode, if_neg Bool.false_ne_true, if_neg (by decide), if_neg h.not_eof] at hrun
  obtain ⟨⟨c, o⟩, d₁, hloop, hrest⟩ := FatM.bind_eq_ok hrun
  rcases writeLoop_extends hv h.chain h.current hloop with ⟨l', hext, hc⟩ | hnone
  · rw [fatWriteFile_of_loop hg h hloop hext hc] at hall
    exact ⟨l', d₁, o, hext, (congrArg Prod.snd hall).symm⟩
  · obtain ⟨u, d₂, hupdate, hlast⟩ := FatM.bind_eq_ok hrest
    obtain rfl : d₂ = d' := congrArg Prod.snd hlast
    have hsame : ∀ a < sectorSize * v.rootDirStart, d₂ a = d₁ a := by
      refine fatUpdateFileDirent_same hg ?_ ?_ hupdate
      · exact h.located.root
      · exact h.located.cluster
    exact absurd (hroom.of_same hg hsame) hnone

variable (v) in
/-- The file `P` has another chain and another size, and all the other nodes are as before. -/
structure Wrote (d d' : Disk) (t t' : Tree) (P : List (List UInt8)) : Prop where
  represents : Represents v d' t'
  node : (t' P).map Node.place = (t P).map Node.place
  others : ∀ ks ≠ P, t' ks = t ks
  kept : ∀ ks ≠ P, ∀ n, t ks = some n → readEnt d' n.addr = readEnt d n.addr
  clusters : ∀ ks ≠ P, ∀ n, t ks = some n → n.isDir = false → ∀ c ∈ n.chain,
    ∀ i < v.clusterBytes, d' (clusterAddr v c + i) = d (clusterAddr v c + i)

section Write

variable {P : List (List UInt8)} {n : Node} (h : Represents v d t) (hn : t P = some n)
include h hn

/-- A handle on a regular file of the tree. -/
theorem Represents.writable {f : Fat16File} {i : Nat} (hf : n.Handle v d f i) (hreg : n.isDir = false)
    (hmode : f.flag.write = true) (hcur : f.currentCluster ∈ n.chain) : Writable v d f n.chain i := by
  refine ⟨?_, hmode, hf.located, hf.apart, ?_, hcur⟩
  · rw [hf.dirent, h.kind hn, hreg]
  · rw [hf.dirent]
    exact h.isChain hn

/-- Writing to a file changes its node only. -/
theorem Represents.wrote (hg : Geometry v) (hreg : n.isDir = false) {l' : List Nat} {d₁ : Disk}
    (hext : Extends v (readEnt d n.addr).startCluster n.chain l' d d₁) (size : Nat) :
    Wrote v d (writeEnt d₁ n.addr ((readEnt d n.addr).setFileSize size)) t
      (Function.update t P (some { n with chain := l' })) P := by
  have hno : ¬n.isDir = true := by rw [hreg]; exact Bool.false_ne_true
  have hgrow := h.grow hg hn hext (fun hdir => absurd hdir hno) fun hdir => absurd hdir hno
  have hent : ∀ {ks A a}, t.Slots v ks A → a ∈ A → readEnt d₁ a = readEnt d a := fun hA ha =>
    h.readEnt_grow hg hn hext (fun hdir => absurd hdir hno) hA ha
  obtain ⟨ks₀, A₀, hA₀, ha₀⟩ := h.placed_of hn
  have hentry := hent hA₀ ha₀
  have hnode : Function.update t P (some { n with chain := l' }) P = some { n with chain := l' } :=
    Function.update_self ..
  have htrim : ∀ i, direntSize ≤ i → (readEnt d n.addr).setFileSize size i = 0 := fun i hi => by
    rw [DirEnt.setFileSize_of_ne _ (Or.inr hi), readEnt_of_le hi]
  refine ⟨hgrow.rewrite hg hnode htrim ?_ ?_ ?_, ?_, fun ks hne => Function.update_of_ne hne .., ?_, ?_⟩
  · change _ = entKey (readEnt d₁ n.addr)
    rw [hentry, entKey_eq_iff]
    exact fun i hi => DirEnt.setFileSize_of_ne _ (Or.inl (by omega))
  · change _ = (readEnt d₁ n.addr).startCluster
    rw [hentry, DirEnt.startCluster_setFileSize]
  · change _ = isDirectory (readEnt d₁ n.addr)
    rw [hentry, DirEnt.isDirectory_setFileSize]
  · rw [hnode, hn]
    rfl
  · intro ks hne m hm
    obtain ⟨ks₁, A₁, hA₁, ha₁⟩ := h.placed_of hm
    have haddr : m.addr ≠ n.addr := fun heq => hne (h.path_eq_of_addr hm hn heq)
    rw [readEnt_writeEnt_slot (hA₀.dvd ha₀) (hA₁.dvd ha₁) htrim, if_neg haddr, hent hA₁ ha₁]
  · intro ks hne m hm hmreg c hc i hi
    have hcr := (h.isChain hm).inRange c hc
    have hle := hcr.1
    have hcn : c ∉ l' := fun hmem => h.grow_disjoint hn hext hm hne hc hmem
    have hout : clusterAddr v c + i < n.addr ∨ n.addr + direntSize ≤ clusterAddr v c + i := by
      rcases hA₀.region hg ha₀ with ⟨-, hlt⟩ | ⟨p, x, hp, hx, hlow, hhigh⟩
      · have := le_clusterAddr (v := v) c
        omega
      · have hxr := (h.isChain hp).inRange x hx
        have hne' : c ≠ x := by
          rintro rfl
          have hks : ks = ks₀ := h.path_eq_of_mem hm hp hc hx
          subst hks
          cases hA₀ with
          | root => exact absurd rfl (h.path_ne_nil hm)
          | dir hp' hdir =>
              obtain rfl := Option.some.inj (hm.symm.trans hp')
              rw [hmreg] at hdir
              exact absurd hdir Bool.false_ne_true
        have := hg.clusterAddr_apart (by omega) (by have := hxr.1; omega) hne'
        omega
    rw [writeEnt_of_outside _ hout, hext.frame.cluster_eq hg hext.chain.inRange (by omega) hcn hi]

end Write

/-! ## Operations -/

/-- `fat_open` with `FAT16_CTL_CREATE`; `fat_open` without it, `fat_write_file` and `fat_close`;
and `fat_delete_file`. -/
inductive Op where
  | create (path : List UInt8) (flag : Flags)
  | write (path : List UInt8) (flag : Flags) (data : List UInt8)
  | delete (path : List UInt8)

def Op.target : Op → List UInt8
  | .create path _ => path
  | .write path _ _ => path
  | .delete path => path

/-- The calls of the operation. `fat_close` does not touch the disk. -/
def Op.run (v : Fat16Volume) (fuel : Nat) : Op → FatM Unit
  | .create path flag => do
      let _ ← fatOpen v fuel path { flag with create := true }
  | .write path flag data => do
      match ← fatOpen v fuel path { flag with create := false } with
      | none => return ()
      | some file => do
          let _ ← fatWriteFile v file data
  | .delete path => do
      let _ ← fatDeleteFile v fuel path

/-- The disk after an operation that completes. -/
def opStep (v : Fat16Volume) (fuel : Nat) (d : Disk) (op : Op) : Option Disk :=
  match op.run v fuel d with
  | (.ok _, d') => some d'
  | (.error _, _) => none

variable (v) in
/-- Where the path has a directory before its last component, it is no regular file. -/
def DirsOn (fuel : Nat) (d : Disk) (path : List UInt8) : Prop :=
  ∀ q cs, components path = components q ++ cs → cs ≠ [] → OrdinaryPath q →
    ∀ f, (fatOpenExisting v fuel q Flags.none d).1 = .ok (some f) → isDirectory f.dirent = true

variable (v) in
/-- The operation is on an ordinary path in a directory, and leaves room on the volume. -/
structure Legal (fuel : Nat) (d : Disk) (op : Op) : Prop where
  path : OrdinaryPath op.target
  dirs : DirsOn v fuel d op.target
  room : ∀ d', opStep v fuel d op = some d' → RoomLeft v d'

variable (v) in
/-- An empty volume: no cluster is in use, and no slot of the root directory is taken. -/
structure Formatted (d : Disk) : Prop where
  table : ∀ c, 3 ≤ c → c < 256 * v.sb.sectorsFat → fatEntry v d c = 0
  root : ∀ a ∈ rootSlots v, (readEnt d a).startCluster = 0

theorem opStep_eq_some {op : Op} : opStep v fuel d op = some d' ↔ ∃ u, op.run v fuel d = (.ok u, d') := by
  unfold opStep
  cases op.run v fuel d with
  | mk r d₁ =>
      cases r with
      | ok u => simp
      | error e => simp

/-- An empty volume holds the empty tree. -/
theorem Formatted.represents (h : Formatted v d) : Represents v d fun _ => none := by
  refine ⟨rfl, fun _ _ _ hn => absurd hn (by simp), fun _ _ _ hn => absurd hn (by simp), ?_,
    fun _ _ _ _ hn => absurd hn (by simp), fun c hc hlt hused => absurd (h.table c hc hlt) hused⟩
  intro ks A hA a ha hstart
  cases hA with
  | root => exact absurd (h.root a ha) hstart
  | dir hn _ => exact absurd hn (by simp)

section Steps

variable (hv : Aligned v) (h : Represents v d t) (hfuel : 2 ^ 16 ≤ fuel)
include hv h hfuel

/-- In the tree, too, only directories are before the last component. -/
theorem Represents.dirsAlong (hp : OrdinaryPath path) (hdirs : DirsOn v fuel d path) :
    t.DirsAlong [] (pathKeys path) := by
  intro ks₁ ks₂ heq hne₁ hne₂ n hn
  obtain ⟨cs₁, cs₂, hcs, rfl, rfl⟩ := List.map_eq_append_iff.mp heq
  have hparts : ∀ c ∈ cs₁, c ∈ components path := fun c hc => hcs ▸ List.mem_append_left _ hc
  have hjoin : components (joinPath cs₁) = cs₁ :=
    components_joinPath fun c hc => of_mem_components (hparts c hc)
  have hks : pathKeys (joinPath cs₁) = cs₁.map key := by rw [pathKeys, hjoin]
  have hcs₁ : cs₁ ≠ [] := by simpa using hne₁
  have hq : OrdinaryPath (joinPath cs₁) := by
    refine ⟨?_, ?_, ?_⟩
    · obtain ⟨c, rest, rfl⟩ := List.exists_cons_of_ne_nil hcs₁
      rfl
    · rwa [hjoin]
    · rw [hjoin]
      exact fun c hc => hp.ordinary c (hparts c hc)
  rw [List.nil_append, ← hks] at hn
  have habove : t.DirsAlong [] (pathKeys (joinPath cs₁)) := by
    intro ks ks' hsplit hks' hne m hm
    rw [hsplit] at hn
    obtain ⟨p, hp, hdir⟩ := h.exists_above hn hks'
    obtain rfl := Option.some.inj (hp.symm.trans hm)
    exact hdir hne
  obtain ⟨f, i, hopen, hf, -⟩ := h.fatOpenExisting_some hv hfuel habove Flags.none hq hn
  have hdir := hdirs (joinPath cs₁) cs₂ (by rw [hjoin, hcs]) (by simpa using hne₂) hq f
    (congrArg Prod.fst hopen)
  rwa [hf.dirent, h.kind hn] at hdir

/-- Writing to a path leaves the disk alone, or changes the node of the path. -/
theorem Represents.write_ok (hp : OrdinaryPath path) (hdirs : t.DirsAlong [] (pathKeys path))
    {data : List UInt8} {u : Unit} (hrun : (Op.write path flag data).run v fuel d = (.ok u, d'))
    (hroom : RoomLeft v d') : d' = d ∨ ∃ t', Wrote v d d' t t' (pathKeys path) := by
  have hopen_eq : fatOpen v fuel path { flag with create := false } =
      fatOpenExisting v fuel path { flag with create := false } := rfl
  change (fatOpen v fuel path { flag with create := false } >>= _) d = _ at hrun
  rw [hopen_eq] at hrun
  cases hn : t (pathKeys path) with
  | none =>
      rw [FatM.bind_ok (h.fatOpenExisting_none hv hfuel hdirs _ hp hn)] at hrun
      exact Or.inl (congrArg Prod.snd hrun).symm
  | some n =>
      obtain ⟨f, i, hopen, hf, hcur, hmode⟩ :=
        h.fatOpenExisting_some hv hfuel hdirs { flag with create := false } hp hn
      rw [FatM.bind_ok hopen] at hrun
      obtain ⟨r, d₁, hwrite, hlast⟩ := FatM.bind_eq_ok hrun
      obtain rfl : d₁ = d' := congrArg Prod.snd hlast
      by_cases hok : n.isDir = false ∧ f.flag.write = true
      · right
        obtain ⟨hreg, hmode⟩ := hok
        obtain ⟨l', d₂, size, hext, rfl⟩ :=
          fatWriteFile_ok hv (h.writable hn hf hreg hmode hcur) hwrite hroom
        rw [hf.dirent] at hext
        rw [hf.addr_eq, hf.dirent]
        exact ⟨_, h.wrote hn hv.toGeometry hreg hext size⟩
      · left
        have hkind : isDirectory f.dirent = n.isDir := by rw [hf.dirent, h.kind hn]
        unfold fatWriteFile at hwrite
        rw [hkind] at hwrite
        split at hwrite
        next => exact (congrArg Prod.snd hwrite).symm
        next hreg =>
          split at hwrite
          next => exact (congrArg Prod.snd hwrite).symm
          next hwr => exact absurd ⟨by simpa using hreg, by simpa using hwr⟩ hok

/-- Deleting a path leaves the disk alone, or removes the path and everything below it. -/
theorem Represents.fatDeleteFile_ok (hp : OrdinaryPath path) (hdirs : t.DirsAlong [] (pathKeys path))
    {r : Int} (hrun : fatDeleteFile v fuel path d = (.ok r, d')) :
    d' = d ∧ r = -1 ∨ Represents v d' (t.prune (pathKeys path)) ∧
      ∀ ks m, t ks = some m → ks ≠ pathKeys path → readEnt d' m.addr = readEnt d m.addr := by
  cases hn : t (pathKeys path) with
  | none =>
      left
      unfold fatDeleteFile at hrun
      rw [FatM.bind_ok (h.fatOpenExisting_none hv hfuel hdirs Flags.none hp hn)] at hrun
      exact ⟨(congrArg Prod.snd hrun).symm, (FatM.ok_inj hrun).symm⟩
  | some n =>
      right
      obtain ⟨d₁, hrun', hpruned, hkept⟩ := h.fatDeleteFile_prune hv hfuel hp hdirs hn
      obtain rfl : d₁ = d' := congrArg Prod.snd (hrun'.symm.trans hrun)
      exact ⟨hpruned, hkept⟩

/-- An operation that completes leaves a volume that holds a tree. -/
theorem Represents.opStep_ok (hpos : 0 < v.rootSectors) {op : Op} (hlegal : Legal v fuel d op)
    (hstep : opStep v fuel d op = some d') : ∃ t', Represents v d' t' := by
  have hroom := hlegal.room d' hstep
  have hdirs := h.dirsAlong hv hfuel hlegal.path hlegal.dirs
  obtain ⟨u, hrun⟩ := opStep_eq_some.mp hstep
  cases op with
  | create path flag =>
      obtain ⟨r, d₁, hopen, hlast⟩ := FatM.bind_eq_ok hrun
      obtain rfl : d₁ = d' := congrArg Prod.snd hlast
      rcases h.fatOpen_ok hv hfuel hpos hlegal.path hdirs rfl hopen hroom with ⟨rfl, -⟩ | ⟨-, t', hmade⟩
      · exact ⟨t, h⟩
      · exact ⟨t', hmade.represents⟩
  | write path flag data =>
      rcases h.write_ok hv hfuel hlegal.path hdirs hrun hroom with rfl | ⟨t', hwrote⟩
      · exact ⟨t, h⟩
      · exact ⟨t', hwrote.represents⟩
  | delete path =>
      obtain ⟨r, d₁, hdelete, hlast⟩ := FatM.bind_eq_ok hrun
      obtain rfl : d₁ = d' := congrArg Prod.snd hlast
      rcases h.fatDeleteFile_ok hv hfuel hlegal.path hdirs hdelete with ⟨rfl, -⟩ | ⟨hpruned, -⟩
      · exact ⟨t, h⟩
      · exact ⟨_, hpruned⟩

end Steps

/-- In every history that starts with an empty volume, the volume holds a tree. -/
theorem opStep_represents (hv : Aligned v) (hpos : 0 < v.rootSectors) (hfuel : 2 ^ 16 ≤ fuel)
    {ops : List Op} (hd : Formatted v d) (hlegal : Guarded (opStep v fuel) (Legal v fuel) d ops) :
    Always (opStep v fuel) (fun d => ∃ t, Represents v d t) d ops := by
  refine always_of_step (fun d op d' hinv hop hstep => ?_) (fun _ hinv => hinv)
    ⟨_, hd.represents⟩ hlegal
  obtain ⟨t, h⟩ := hinv
  exact h.opStep_ok hv hfuel hpos hop hstep

/-- The volume at the end of such a history holds a tree. -/
theorem exists_represents (hv : Aligned v) (hpos : 0 < v.rootSectors) (hfuel : 2 ^ 16 ≤ fuel)
    {d₀ : Disk} {ops : List Op} (hd : Formatted v d₀) (hlegal : Guarded (opStep v fuel) (Legal v fuel) d₀ ops)
    (hrun : run (opStep v fuel) d₀ ops = some d) : ∃ t, Represents v d t := by
  have hstep : ∀ d op d', (∃ t, Represents v d t) → Legal v fuel d op → opStep v fuel d op = some d' →
      ∃ t, Represents v d' t := by
    rintro d op d' ⟨t, h⟩ hop hstep
    exact h.opStep_ok hv hfuel hpos hop hstep
  have hstart : ∃ t, Represents v d₀ t := ⟨_, hd.represents⟩
  obtain ⟨t, h⟩ := inv_of_run hstep hstart hlegal hrun
  exact ⟨t, h⟩

/-- The directory `D` is made, the file `F` is made, written to and appended to, and `D` is deleted. -/
def sampleOps : List Op :=
  [.create [47, 68] { Flags.none with dir := true }, .create [47, 70] Flags.none,
    .write [47, 70] { Flags.none with write := true } [1, 2, 3],
    .write [47, 70] { Flags.none with append := true } [4], .delete [47, 68]]

theorem smallVolume_aligned : Aligned smallVolume :=
  ⟨smallVolume_geometry, by decide, by decide⟩

theorem formatted_zero : Formatted smallVolume fun _ => 0 := ⟨fun _ _ _ => rfl, fun _ _ => rfl⟩

/-- A path with one component is in the root directory. -/
theorem dirsOn_of_length (h : (components path).length ≤ 1) : DirsOn v fuel d path := by
  intro q cs hsplit hcs hq
  have hlen := List.length_pos_of_ne_nil hq.ne_nil
  have hlen' := List.length_pos_of_ne_nil hcs
  rw [hsplit, List.length_append] at h
  omega

theorem sampleOps_legal (d : Disk) {op : Op} (hop : op ∈ sampleOps) : Legal smallVolume (2 ^ 16) d op := by
  have hparts : components op.target = [[68]] ∨ components op.target = [[70]] := by
    simp only [sampleOps, List.mem_cons, List.not_mem_nil, or_false] at hop
    rcases hop with rfl | rfl | rfl | rfl | rfl <;> decide
  have hhead : op.target.head? = some slash := by
    simp only [sampleOps, List.mem_cons, List.not_mem_nil, or_false] at hop
    rcases hop with rfl | rfl | rfl | rfl | rfl <;> rfl
  have hD : Ordinary [68] := by constructor <;> decide
  have hF : Ordinary [70] := by constructor <;> decide
  refine ⟨⟨hhead, ?_, ?_⟩, dirsOn_of_length ?_, fun _ _ => Or.inr (by decide)⟩
  · rcases hparts with heq | heq <;> simp [heq]
  · rcases hparts with heq | heq <;> simp [heq, hD, hF]
  · rcases hparts with heq | heq <;> simp [heq]

theorem sampleOps_runs : (run (opStep smallVolume (2 ^ 16)) (fun _ => 0) sampleOps).isSome = true := by
  decide +kernel

theorem opStep_represents_sample :
    (run (opStep smallVolume (2 ^ 16)) (fun _ => 0) sampleOps).isSome = true ∧
      Always (opStep smallVolume (2 ^ 16)) (fun d => ∃ t, Represents smallVolume d t) (fun _ => 0) sampleOps :=
  ⟨sampleOps_runs, opStep_represents smallVolume_aligned (by decide) (le_refl _) formatted_zero
    (guarded_of_forall fun _ hop d => sampleOps_legal d hop)⟩

end TsOs.Fat
