import EnclaveOS.Fs.OpenFileRuns

/-!
# NodeRuns - the counter of a node and the release of orphans

`sys_open` counts a reference of the node for the open file it makes, and
`vfs_close_fd` drops one for the open file it frees.  As long as no
descriptor is copied the counter of a node is therefore the number of its open
files, and an unlinked node goes away with the last of them.
`dup`, `dup2` and `task_fork` count one more reference for each
copy, which no `close` ever drops.
-/

namespace EnclaveOS

open RefCount

/-- All addresses of open files. -/
noncomputable def openFiles : Finset Ptr :=
  (Set.toFinite Set.univ).toFinset

theorem mem_openFiles (of : Ptr) : of ∈ openFiles :=
  (Set.Finite.mem_toFinset _).mpr (Set.mem_univ of)

/-- The node of an allocated open file. -/
def VfsState.nodeOf (s : VfsState) (of : Ptr) : Option Ptr :=
  (s.files of).map OpenFile.node

/-- Number of open files on a node. -/
noncomputable def VfsState.fileCount (s : VfsState) (n : Ptr) : Nat :=
  RefCount.refs openFiles s.nodeOf n

/-- A node counts its open files, and an orphan has one; the data of tmpfs files is
allocated with its node. -/
structure NodeInv (s : VfsState) : Prop where
  fd : FdInv s
  live : NodesLive s
  counted : ∀ n node, s.nodes n = some node →
    node.refCount = s.fileCount n ∧ (node.isUnlinked = true → 0 < s.fileCount n)
  data : ∀ n node p, s.nodes n = some node → node.privateData = some p → (s.fileData p).isSome
  distinct : ∀ n node n' node' p, s.nodes n = some node → s.nodes n' = some node' →
    node.privateData = some p → node'.privateData = some p → n = n'
  owned : ∀ p, (s.fileData p).isSome → ∃ n node, s.nodes n = some node ∧ node.privateData = some p

theorem VfsState.fileCount_pos_iff {s : VfsState} {n : Ptr} :
    0 < s.fileCount n ↔ ∃ of file, s.files of = some file ∧ file.node = n := by
  unfold VfsState.fileCount
  rw [refs_pos_iff]
  constructor
  · rintro ⟨of, -, hof⟩
    obtain ⟨file, hfile, hn⟩ := Option.map_eq_some_iff.mp hof
    exact ⟨of, file, hfile, hn⟩
  · rintro ⟨of, file, hfile, hn⟩
    exact ⟨of, mem_openFiles of, Option.map_eq_some_iff.mpr ⟨file, hfile, hn⟩⟩

theorem VfsState.fileCount_eq_zero {s : VfsState} (h : ∀ of, s.files of = none) (n : Ptr) :
    s.fileCount n = 0 := by
  refine refs_eq_zero_iff.mpr fun of _ => ?_
  simp [VfsState.nodeOf, h]

theorem VfsState.fileCount_congr {s s' : VfsState} (h : s'.nodeOf = s.nodeOf) (n : Ptr) :
    s'.fileCount n = s.fileCount n := by
  unfold VfsState.fileCount
  rw [h]

/-- Each open file has a descriptor of its own. -/
theorem FdInv.fileCount_le {s : VfsState} (h : FdInv s) (n : Ptr) :
    s.fileCount n ≤ 268435456 := by
  have hslot : ∀ of, ∃ x, (s.files of).isSome → s.fdTable x = some of := by
    intro of
    by_cases hof : (s.files of).isSome
    · obtain ⟨x, -, hx⟩ := refs_pos_iff.mp ((h.live of).mp hof)
      exact ⟨x, fun _ => hx⟩
    · exact ⟨(0, 0), fun hof' => absurd hof' hof⟩
  choose owner howner using hslot
  have hsome : ∀ of, s.nodeOf of = some n → (s.files of).isSome := by
    intro of hof
    obtain ⟨file, hfile, -⟩ := Option.map_eq_some_iff.mp hof
    rw [hfile]
    rfl
  have hcard : Fintype.card (TaskId × Fd) = 268435456 := by
    rw [Fintype.card_prod, Fintype.card_fin, Fintype.card_fin]
  rw [← hcard]
  refine (refs_le_card descriptors owner (fun of _ _ => mem_descriptors _)
    fun a _ b _ ha hb hab => ?_).trans (Finset.card_le_univ _)
  have hslot := howner a (hsome a ha)
  rw [hab, howner b (hsome b hb)] at hslot
  exact (Option.some.inj hslot).symm

theorem VfsState.nodeOf_setFile (s : VfsState) (of : Ptr) (file : Option OpenFile) :
    (s.setFile of file).nodeOf = Function.update s.nodeOf of (file.map OpenFile.node) := by
  funext a
  unfold VfsState.nodeOf
  rw [VfsState.setFile_files, Function.update_apply, Function.update_apply]
  split_ifs <;> rfl

namespace NodeInv

variable {s s' : VfsState}

theorem booted {console : Ptr} (h : s.Booted console) : NodeInv s where
  fd := h.fdInv
  live of file hfile := by simp [h.files] at hfile
  counted n node hnode := by
    rw [VfsState.fileCount_eq_zero h.files, (h.unused n node hnode).1, (h.unused n node hnode).2]
    simp
  data := h.data
  distinct := h.distinct
  owned := h.owned

/-- Nothing changes that nodes are counted by. -/
theorem congr (h : NodeInv s) (hfd : FdInv s') (hof : s'.nodeOf = s.nodeOf)
    (hnodes : s'.nodes = s.nodes) (hdata : s'.fileData = s.fileData) : NodeInv s' := by
  refine ⟨hfd, fun of file hfile => ?_, fun n node hnode => ?_, ?_, ?_, ?_⟩
  · have hold : s.nodeOf of = some file.node := by
      rw [← hof]
      unfold VfsState.nodeOf
      rw [hfile]
      rfl
    obtain ⟨old, hold, heq⟩ := Option.map_eq_some_iff.mp hold
    rw [hnodes, ← heq]
    exact h.live of old hold
  · rw [VfsState.fileCount_congr hof]
    exact h.counted n node (hnodes ▸ hnode)
  · rw [hnodes, hdata]
    exact h.data
  · rw [hnodes]
    exact h.distinct
  · rw [hnodes, hdata]
    exact h.owned

/-- A node changes only its counter and its link to the tree. -/
theorem setNode (h : NodeInv s) {n : Ptr} {node : VfsNode} (hnode : s.nodes n = some node)
    (node' : VfsNode) (hpriv : node'.privateData = node.privateData) (hfd : FdInv s')
    (hlive : ∀ of file, s'.files of = some file → (s.nodes file.node).isSome)
    (hnodes : s'.nodes = Function.update s.nodes n (some node'))
    (hdata : s'.fileData = s.fileData)
    (hcount : node'.refCount = s'.fileCount n ∧ (node'.isUnlinked = true → 0 < s'.fileCount n))
    (hother : ∀ m, m ≠ n → s'.fileCount m = s.fileCount m) : NodeInv s' := by
  have hback : ∀ m nd, s'.nodes m = some nd →
      ∃ nd₀, s.nodes m = some nd₀ ∧ nd.privateData = nd₀.privateData := by
    intro m nd hm
    rw [hnodes, Function.update_apply] at hm
    split_ifs at hm with hmn
    · cases hm
      exact ⟨node, hmn ▸ hnode, hpriv⟩
    · exact ⟨nd, hm, rfl⟩
  refine ⟨hfd, fun of file hfile => ?_, fun m nd hm => ?_, fun m nd p hm hp => ?_,
    fun m nd m' nd' p hm hm' hp hp' => ?_, fun p hp => ?_⟩
  · rw [hnodes, Function.update_apply]
    split_ifs
    · rfl
    · exact hlive of file hfile
  · rw [hnodes, Function.update_apply] at hm
    split_ifs at hm with hmn
    · cases hm
      rw [hmn]
      exact hcount
    · rw [hother m hmn]
      exact h.counted m nd hm
  · obtain ⟨nd₀, hm₀, heq⟩ := hback m nd hm
    rw [hdata]
    exact h.data m nd₀ p hm₀ (heq ▸ hp)
  · obtain ⟨nd₀, hm₀, heq⟩ := hback m nd hm
    obtain ⟨nd₁, hm₁, heq'⟩ := hback m' nd' hm'
    exact h.distinct m nd₀ m' nd₁ p hm₀ hm₁ (heq ▸ hp) (heq' ▸ hp')
  · rw [hdata] at hp
    obtain ⟨m, nd, hm, hpm⟩ := h.owned p hp
    by_cases hmn : m = n
    · refine ⟨n, node', ?_, ?_⟩
      · rw [hnodes, Function.update_self]
      · rw [hmn, hnode] at hm
        cases hm
        rw [hpriv]
        exact hpm
    · refine ⟨m, nd, ?_, hpm⟩
      rw [hnodes, Function.update_of_ne hmn]
      exact hm

/-- A node without open files is freed with its data. -/
theorem freeNode (h : NodeInv s) {n : Ptr} {node : VfsNode} (hnode : s.nodes n = some node)
    (hfd : FdInv s')
    (hlive : ∀ of file, s'.files of = some file → file.node ≠ n ∧ (s.nodes file.node).isSome)
    (hnodes : s'.nodes = Function.update s.nodes n none)
    (hdata : s'.fileData = fun p => if node.privateData = some p then none else s.fileData p)
    (hother : ∀ m, m ≠ n → s'.fileCount m = s.fileCount m) : NodeInv s' := by
  have hback : ∀ m nd, s'.nodes m = some nd → m ≠ n ∧ s.nodes m = some nd := by
    intro m nd hm
    rw [hnodes, Function.update_apply] at hm
    split_ifs at hm with hmn
    exact ⟨hmn, hm⟩
  refine ⟨hfd, fun of file hfile => ?_, fun m nd hm => ?_, fun m nd p hm hp => ?_,
    fun m nd m' nd' p hm hm' hp hp' => ?_, fun p hp => ?_⟩
  · obtain ⟨hne, hsome⟩ := hlive of file hfile
    rw [hnodes, Function.update_of_ne hne]
    exact hsome
  · obtain ⟨hmn, hm⟩ := hback m nd hm
    rw [hother m hmn]
    exact h.counted m nd hm
  · obtain ⟨hmn, hm⟩ := hback m nd hm
    rw [hdata]
    dsimp only
    rw [if_neg fun hp' => hmn (h.distinct m nd n node p hm hnode hp hp')]
    exact h.data m nd p hm hp
  · exact h.distinct m nd m' nd' p (hback m nd hm).2 (hback m' nd' hm').2 hp hp'
  · rw [hdata] at hp
    dsimp only at hp
    split_ifs at hp with hpn
    · simp at hp
    · obtain ⟨m, nd, hm, hpm⟩ := h.owned p hp
      have hmn : m ≠ n := by
        rintro rfl
        rw [hnode] at hm
        cases hm
        exact hpn hpm
      refine ⟨m, nd, ?_, hpm⟩
      rw [hnodes, Function.update_of_ne hmn]
      exact hm

theorem closes (h : NodeInv s) {x : TaskId × Fd} (hcloses : Closes s x s') : NodeInv s' := by
  have hfd := hcloses.fdInv h.fd
  cases hcloses with
  | @shared of file hslot hfile hmany =>
    refine h.congr hfd ?_ rfl rfl
    rw [VfsState.nodeOf_setFile]
    have hof : s.nodeOf of = some file.node := by
      unfold VfsState.nodeOf
      rw [hfile]
      rfl
    exact (congrArg _ hof.symm).trans (Function.update_eq_self _ _)
  | @last of file node s₁ hslot hfile hone hnode hput =>
    have hof : s.nodeOf of = some file.node := by
      unfold VfsState.nodeOf
      rw [hfile]
      rfl
    have hnodeOf : (s₁.setFile of none).nodeOf = Function.update s.nodeOf of none := by
      rw [VfsState.nodeOf_setFile]
      unfold VfsState.nodeOf
      rw [hput.frame.2.2]
      rfl
    have hcount : ∀ m, (s₁.setFile of none).fileCount m =
        s.fileCount m - if file.node = m then 1 else 0 := by
      intro m
      unfold VfsState.fileCount
      rw [hnodeOf]
      exact refs_remove (mem_openFiles of) hof m
    have hself : (s₁.setFile of none).fileCount file.node = s.fileCount file.node - 1 := by
      rw [hcount, if_pos rfl]
    have hother : ∀ m, m ≠ file.node → (s₁.setFile of none).fileCount m = s.fileCount m := by
      intro m hm
      rw [hcount, if_neg hm.symm, Nat.sub_zero]
    have hfiles : ∀ a fa, (s₁.setFile of none).files a = some fa → s.files a = some fa := by
      intro a fa hfa
      rw [VfsState.setFile_files, Function.update_apply] at hfa
      split_ifs at hfa
      rw [hput.frame.2.2] at hfa
      exact hfa
    obtain ⟨hcounted, horphan⟩ := h.counted file.node node hnode
    have hpos : 0 < s.fileCount file.node := VfsState.fileCount_pos_iff.mpr ⟨of, file, hfile, rfl⟩
    have hpred : pred32 node.refCount = s.fileCount file.node - 1 := by
      rw [hcounted]
      exact pred32_pos hpos
    cases hput with
    | keep hkeep =>
      refine h.setNode hnode { node with refCount := pred32 node.refCount } rfl hfd
        (fun a fa hfa => h.live a fa (hfiles a fa hfa)) rfl rfl ⟨?_, fun hunlinked => ?_⟩ hother
      · rw [hself]
        exact hpred
      · rw [hself, ← hpred]
        exact Nat.pos_of_ne_zero fun hzero => hkeep ⟨hzero, hunlinked⟩
    | release hzero _ _ _ _ hnodes hdata =>
      refine h.freeNode hnode hfd (fun a fa hfa => ⟨fun heq => ?_, h.live a fa (hfiles a fa hfa)⟩)
        hnodes hdata hother
      have hleft := VfsState.fileCount_pos_iff.mpr ⟨a, fa, hfa, heq⟩
      omega

theorem retire (h : NodeInv s) {task : TaskId} (hempty : ∀ i, s.fdTable (task, i) = none)
    (status : FdStatus) : NodeInv (s.setStatus task status) :=
  h.congr (h.fd.retire hempty status) rfl rfl rfl

theorem closeStable (T : TaskId → Prop) : CloseStable T NodeInv where
  inv _ h := h.fd
  live _ h := h.live
  closes _ _ _ _ h hcloses := h.closes hcloses
  retire _ _ status h hempty := h.retire hempty status

theorem sameObjects (h : NodeInv s) (hsame : SameObjects s s') : NodeInv s' := by
  have hnodeOf : s'.nodeOf = s.nodeOf := by
    unfold VfsState.nodeOf
    rw [hsame.files]
  refine ⟨h.fd.congr hsame.status hsame.table hsame.files, hsame.nodesLive h.live,
    fun n node' hnode' => ?_, fun n node' p hnode' hp => ?_,
    fun n node' m nd' p hnode' hm hp hp' => ?_, fun p hp => ?_⟩
  · obtain ⟨node, hnode, hfix⟩ := hsame.node hnode'
    obtain ⟨-, -, -, hcount, hunlinked⟩ := VfsNode.fixed_eq hfix
    rw [VfsState.fileCount_congr hnodeOf, hcount, hunlinked]
    exact h.counted n node hnode
  · obtain ⟨node, hnode, hfix⟩ := hsame.node hnode'
    rw [hsame.data]
    exact h.data n node p hnode ((VfsNode.fixed_eq hfix).2.2.1 ▸ hp)
  · obtain ⟨node, hnode, hfix⟩ := hsame.node hnode'
    obtain ⟨nd, hnd, hfix'⟩ := hsame.node hm
    exact h.distinct n node m nd p hnode hnd ((VfsNode.fixed_eq hfix).2.2.1 ▸ hp)
      ((VfsNode.fixed_eq hfix').2.2.1 ▸ hp')
  · rw [hsame.data] at hp
    obtain ⟨n, node, hnode, hpn⟩ := h.owned p hp
    have hn := hsame.nodes n
    rw [hnode] at hn
    obtain ⟨node', hnode', hfix⟩ := Option.map_eq_some_iff.mp hn
    exact ⟨n, node', hnode', by rw [(VfsNode.fixed_eq hfix).2.2.1]; exact hpn⟩

theorem addNode (h : NodeInv s) {n : Ptr} {driver : NodeDriver} {privateData : Option Ptr}
    (hmakes : s.Makes n driver privateData) (size flags : Nat) :
    NodeInv (s.addNode n size flags driver privateData) := by
  obtain ⟨hfree, -, hfresh⟩ := hmakes
  have hzero : s.fileCount n = 0 := by
    refine Nat.eq_zero_of_not_pos fun hpos => ?_
    obtain ⟨of, file, hfile, hn⟩ := VfsState.fileCount_pos_iff.mp hpos
    have hsome := h.live of file hfile
    rw [hn, hfree] at hsome
    simp at hsome
  have hold : ∀ m node p, m ≠ n → s.nodes m = some node → node.privateData = some p →
      privateData ≠ some p := by
    intro m node p _ hm hp heq
    have hsome := h.data m node p hm hp
    rw [hfresh p heq] at hsome
    simp at hsome
  have hback : ∀ m node, (s.addNode n size flags driver privateData).nodes m = some node →
      (m = n ∧ node = ⟨size, flags, driver, privateData, 0, false⟩) ∨
        (m ≠ n ∧ s.nodes m = some node) := by
    intro m node hm
    dsimp only [VfsState.addNode, VfsState.setNode] at hm
    rw [Function.update_apply] at hm
    split_ifs at hm with hmn
    · cases hm
      exact Or.inl ⟨hmn, rfl⟩
    · exact Or.inr ⟨hmn, hm⟩
  refine ⟨h.fd.congr rfl rfl rfl, fun of file hfile => ?_, fun m node hm => ?_,
    fun m node p hm hp => ?_, fun m node m' node' p hm hm' hp hp' => ?_, fun p hp => ?_⟩
  · dsimp only [VfsState.addNode, VfsState.setNode]
    rw [Function.update_apply]
    split_ifs
    · rfl
    · exact h.live of file hfile
  · have hcount : (s.addNode n size flags driver privateData).fileCount m = s.fileCount m :=
      VfsState.fileCount_congr rfl m
    rw [hcount]
    obtain ⟨rfl, rfl⟩ | ⟨-, hm⟩ := hback m node hm
    · rw [hzero]
      simp
    · exact h.counted m node hm
  · dsimp only [VfsState.addNode]
    split_ifs with hq
    · rfl
    · obtain ⟨-, rfl⟩ | ⟨-, hm⟩ := hback m node hm
      · exact absurd hp hq
      · exact h.data m node p hm hp
  · obtain ⟨rfl, rfl⟩ | ⟨hmn, hold₀⟩ := hback m node hm
    · obtain ⟨rfl, rfl⟩ | ⟨hmn', hold₁⟩ := hback m' node' hm'
      · rfl
      · exact absurd hp (hold m' node' p hmn' hold₁ hp')
    · obtain ⟨rfl, rfl⟩ | ⟨-, hold₁⟩ := hback m' node' hm'
      · exact absurd hp' (hold m node p hmn hold₀ hp)
      · exact h.distinct m node m' node' p hold₀ hold₁ hp hp'
  · dsimp only [VfsState.addNode, VfsState.setNode] at hp ⊢
    split_ifs at hp with hq
    · exact ⟨n, _, Function.update_self _ _ _, hq⟩
    · obtain ⟨m, node, hm, hpm⟩ := h.owned p hp
      have hmn : m ≠ n := by
        rintro rfl
        simp [hfree] at hm
      exact ⟨m, node, by rw [Function.update_of_ne hmn]; exact hm, hpm⟩

theorem opens (h : NodeInv s) {task : TaskId} {n : Ptr} {alloc : Option Ptr}
    (hactive : s.status task = .active) (hfresh : ∀ of, alloc = some of → s.files of = none)
    (hopens : Opens s task n alloc s') : NodeInv s' := by
  obtain hsame | ⟨s₁, node₁, of, i, file, hsame, hnone, hnode₁, hfile, rfl, hfd, hlive⟩ :=
    hopens.installs h.fd h.live hactive hfresh
  · exact h.sameObjects hsame
  have h₁ := h.sameObjects hsame
  have hnoneOf : s₁.nodeOf of = none := by
    unfold VfsState.nodeOf
    rw [hnone]
    rfl
  have hadd : ∀ m, RefCount.refs openFiles (Function.update s₁.nodeOf of (some n)) m =
      s₁.fileCount m + if n = m then 1 else 0 :=
    fun m => refs_install (mem_openFiles of) hnoneOf n m
  have hnodeOf : (((s₁.setNode n (some { node₁ with
      refCount := succ32 node₁.refCount })).setFile of (some file)).setSlot (task, i)
      (some of)).nodeOf = Function.update s₁.nodeOf of (some n) := by
    rw [← hfile]
    exact VfsState.nodeOf_setFile s₁ of (some file)
  have hfileCount := fun m => (congrArg (fun site => RefCount.refs openFiles site m)
    hnodeOf).trans (hadd m)
  obtain ⟨hcounted, -⟩ := h₁.counted n node₁ hnode₁
  refine h₁.setNode hnode₁ { node₁ with refCount := succ32 node₁.refCount } rfl hfd hlive rfl rfl
    ⟨?_, fun _ => ?_⟩ fun m hm => ?_
  · have hn := hfileCount n
    rw [if_pos rfl] at hn
    refine Eq.trans ?_ hn.symm
    dsimp only
    rw [hcounted]
    exact succ32_eq (h₁.fd.fileCount_le n)
  · have hn := hfileCount n
    rw [if_pos rfl] at hn
    exact (Nat.succ_pos _).trans_eq hn.symm
  · have hn := hfileCount m
    rw [if_neg hm.symm, Nat.add_zero] at hn
    exact hn

theorem sysOpen (h : NodeInv s) {task : TaskId} {lookup : Lookup} {alloc : Option Ptr}
    (hactive : s.status task = .active) (hlookup : lookup.Possible s)
    (hfresh : ∀ of, alloc = some of → s.files of = none) (flags : Nat) :
    ∃ s' r, sysOpen s task lookup flags alloc = some (s', r) ∧ NodeInv s' := by
  obtain ⟨r, hres⟩ | ⟨n, s', r, -, hres, hopens⟩ |
    ⟨n, _, _, _, _, s', r, hmakes, hres, hopens⟩ := sysOpen_spec task flags alloc hlookup
  · exact ⟨s, r, hres, h⟩
  · exact ⟨s', r, hres, h.opens hactive hfresh hopens⟩
  · exact ⟨s', r, hres, (h.addNode hmakes _ _).opens hactive hfresh hopens⟩

/-- A file without open files is freed at once, another becomes an orphan. -/
theorem sysUnlink (h : NodeInv s) {n : Ptr} {node : VfsNode} (hnode : s.nodes n = some node)
    (hdriver : node.driver = .tmpfs) : ∃ s', sysUnlink s n = some s' ∧ NodeInv s' := by
  obtain ⟨hcounted, -⟩ := h.counted n node hnode
  unfold EnclaveOS.sysUnlink
  rw [hnode, Option.bind_eq_bind, Option.bind_some]
  dsimp only
  by_cases hzero : node.refCount = 0
  · rw [if_pos hzero]
    unfold VfsState.closeCallback
    dsimp only
    rw [hdriver]
    refine ⟨_, rfl, h.freeNode hnode (h.fd.congr rfl rfl rfl) (fun of file hfile => ⟨fun heq => ?_,
      h.live of file hfile⟩) rfl rfl fun m _ => VfsState.fileCount_congr rfl m⟩
    have hpos : 0 < s.fileCount n := VfsState.fileCount_pos_iff.mpr ⟨of, file, hfile, heq⟩
    omega
  · rw [if_neg hzero]
    refine ⟨_, rfl, h.setNode hnode { node with isUnlinked := true } rfl (h.fd.congr rfl rfl rfl)
      h.live rfl rfl ⟨hcounted, fun _ => ?_⟩ fun m _ => VfsState.fileCount_congr rfl m⟩
    exact (Nat.pos_of_ne_zero hzero).trans_eq hcounted

theorem taskFork (h : NodeInv s) {parent child : TaskId} (hdead : s.status child = .dead)
    (hparent : ∀ i, s.fdTable (parent, i) = none) :
    ∃ s', taskFork s parent child = some s' ∧ NodeInv s' := by
  have hempty := h.fd.closed child (by simp [hdead])
  unfold EnclaveOS.taskFork
  rw [newTask_eq h.fd hdead]
  obtain ⟨s', hs', h', -⟩ := foldlM_inheritFd parent child
    (P := fun s => NodeInv s ∧ ∀ i, s.fdTable (parent, i) = none)
    (fun _ h => h.1.fd) (fun _ h => h.1.live) (fun s i _ h _ hslot => absurd (h.2 i) hslot)
    (List.finRange 256) (List.nodup_finRange 256) ⟨h.retire hempty .active, hparent⟩
    (Function.update_self _ _ _) fun i _ => hempty i
  exact ⟨s', hs', h'⟩

end NodeInv

/-- The operation copies no descriptor. -/
def FdOp.CopiesNothing (s : VfsState) : FdOp → Prop
  | .dup task oldFd =>
    ((fdIndex oldFd).bind fun i => s.fdTable (task, i)) = none ∨ s.freeFd task = none
  | .dup2 task oldFd newFd =>
    ((fdIndex oldFd).bind fun i => s.fdTable (task, i)) = none ∨ fdIndex newFd = none ∨
      fdIndex oldFd = fdIndex newFd
  | .fork parent _ => ∀ i, s.fdTable (parent, i) = none
  | _ => True

/-- An operation that copies no descriptor succeeds and keeps the counters. -/
theorem NodeInv.step {s : VfsState} (h : NodeInv s) {op : FdOp} (hop : op.Possible s)
    (hcopy : op.CopiesNothing s) : ∃ s', op.step s = some s' ∧ NodeInv s' := by
  cases op with
  | create task =>
    refine ⟨_, rfl, ?_⟩
    rw [newTask_eq h.fd hop]
    exact h.retire (h.fd.closed task (by simp [show s.status task = .dead from hop])) .active
  | mknod n size flags driver privateData => exact ⟨_, rfl, h.addNode hop size flags⟩
  | openFile task lookup flags alloc =>
    obtain ⟨s', r, hres, h'⟩ := h.sysOpen hop.1 hop.2.1 hop.2.2 flags
    exact ⟨s', by rw [FdOp.step, hres]; rfl, h'⟩
  | close task fd =>
    obtain ⟨-, hres⟩ | ⟨i, s', -, hres, hcloses⟩ := vfsCloseFd_spec h.fd h.live task fd
    · exact ⟨s, by rw [FdOp.step, hres]; rfl, h⟩
    · exact ⟨s', by rw [FdOp.step, hres]; rfl, h.closes hcloses⟩
  | dup task oldFd =>
    obtain ⟨-, r, hres⟩ | ⟨hopen, hfree, -⟩ := sysDup_spec h.fd h.live hop oldFd
    · exact ⟨s, by rw [FdOp.step, hres]; rfl, h⟩
    · exact absurd hcopy (not_or.mpr ⟨hopen, hfree⟩)
  | dup2 task oldFd newFd =>
    obtain ⟨-, r, hres⟩ | ⟨hopen, hne, j, s₁, s', r, hj, -⟩ :=
      sysDup2_spec (fun _ h => h.fd) (fun _ h => h.live) h hop oldFd newFd
        fun _ _ _ _ _ hcloses => NodeInv.closes h hcloses
    · exact ⟨s, by rw [FdOp.step, hres]; rfl, h⟩
    · obtain hcopy | hcopy | hcopy := hcopy
      · exact absurd hcopy hopen
      · simp [hj] at hcopy
      · exact absurd hcopy hne
  | fork parent child => exact h.taskFork hop.2 hcopy
  | exec task => exact ⟨s, by rw [FdOp.step, sysExec_eq], h⟩
  | exit task victims isInit =>
    exact (NodeInv.closeStable fun _ => True).taskExit trivial (fun _ _ => trivial) h isInit
  | waitpid zombie =>
    exact ⟨_, rfl, h.retire (h.fd.closed zombie (by
      simp [show s.status zombie = .zombie from hop])) .dead⟩
  | unlink n =>
    obtain ⟨node, hnode, -, hdriver⟩ := hop
    exact h.sysUnlink hnode hdriver

/-- From boot on, while no operation copies a descriptor: the counter of every node is
the number of its open files, an open file has its node with the data, and an
unlinked node is kept by an open file; no data outlives its node. -/
theorem node_refs {s₀ s : VfsState} {console : Ptr} (hboot : s₀.Booted console)
    (hrun : Reach FdOp.step (fun s op => op.Possible s ∧ op.CopiesNothing s) s₀ s) :
    (∀ n node, s.nodes n = some node → node.refCount = s.fileCount n) ∧
    (∀ of file, s.files of = some file → ∃ node, s.nodes file.node = some node ∧
      ∀ p, node.privateData = some p → (s.fileData p).isSome) ∧
    (∀ n node, s.nodes n = some node → node.isUnlinked = true →
      ∃ of file, s.files of = some file ∧ file.node = n) ∧
    (∀ p, (s.fileData p).isSome → ∃ n node, s.nodes n = some node ∧ node.privateData = some p) := by
  have hinv : NodeInv s := by
    refine Reach.invariant (.booted hboot) (fun s op s' h hop hs => ?_) hrun
    obtain ⟨s₁, hs₁, h₁⟩ := h.step hop.1 hop.2
    rw [hs] at hs₁
    cases hs₁
    exact h₁
  refine ⟨fun n node hnode => (hinv.counted n node hnode).1, fun of file hfile => ?_,
    fun n node hnode horphan => ?_, hinv.owned⟩
  · obtain ⟨node, hnode⟩ := Option.isSome_iff_exists.mp (hinv.live of file hfile)
    exact ⟨node, hnode, fun p hp => hinv.data _ node p hnode hp⟩
  · exact VfsState.fileCount_pos_iff.mp ((hinv.counted n node hnode).2 horphan)

/-- Opening a file, unlinking it and closing it frees the file and its data. -/
theorem node_refs_sample :
    ∃ s, Reach FdOp.step (fun s op => op.Possible s ∧ op.CopiesNothing s) sampleBoot s ∧
      s.nodes 2 = none ∧ s.fileData 3 = none ∧
      ∀ n node, s.nodes n = some node → node.refCount = s.fileCount n := by
  have hopen : Reach FdOp.step (fun s op => op.Possible s ∧ op.CopiesNothing s) sampleBoot _ :=
    .next (i := .openFile 1 (.found 2) 2 (some 9)) .start
      ⟨⟨rfl, ⟨_, rfl, rfl⟩, by rintro of ⟨⟩; rfl⟩, trivial⟩ rfl
  have hunlink : Reach FdOp.step (fun s op => op.Possible s ∧ op.CopiesNothing s) sampleBoot _ :=
    .next (i := .unlink 2) hopen ⟨⟨_, rfl, rfl, rfl⟩, trivial⟩ rfl
  have hclose : Reach FdOp.step (fun s op => op.Possible s ∧ op.CopiesNothing s) sampleBoot _ :=
    .next (i := .close 1 0) hunlink ⟨rfl, trivial⟩ rfl
  exact ⟨_, hclose, rfl, rfl, (node_refs sampleBoot_booted hclose).1⟩

/-- A file is opened, its descriptor copied, the file unlinked and both descriptors
closed: no open file is left, and the orphan stays with its counter and its data. -/
theorem dup_leaks_orphan :
    ∃ s, Reach FdOp.step (fun s op => op.Possible s) sampleBoot s ∧
      (∀ of, s.files of = none) ∧ s.fileCount 2 = 0 ∧ (s.fileData 3).isSome ∧
      ∃ node, s.nodes 2 = some node ∧ node.isUnlinked = true ∧ node.refCount = 1 := by
  have hopen : Reach FdOp.step (fun s op => op.Possible s) sampleBoot _ :=
    .next (i := .openFile 1 (.found 2) 2 (some 9)) .start
      ⟨rfl, ⟨_, rfl, rfl⟩, by rintro of ⟨⟩; rfl⟩ rfl
  have hdup : Reach FdOp.step (fun s op => op.Possible s) sampleBoot _ :=
    .next (i := .dup 1 0) hopen rfl rfl
  have hunlink : Reach FdOp.step (fun s op => op.Possible s) sampleBoot _ :=
    .next (i := .unlink 2) hdup ⟨_, rfl, rfl, rfl⟩ rfl
  have hfirst : Reach FdOp.step (fun s op => op.Possible s) sampleBoot _ :=
    .next (i := .close 1 0) hunlink rfl rfl
  have hlast : Reach FdOp.step (fun s op => op.Possible s) sampleBoot _ :=
    .next (i := .close 1 1) hfirst rfl rfl
  have hfiles : ∀ of : Ptr, Function.update (Function.update (Function.update
      (Function.update (fun _ => none) 9 (some (⟨2, 0, 2, 1⟩ : OpenFile))) 9
        (some ⟨2, 0, 2, 2⟩)) 9 (some ⟨2, 0, 2, 1⟩)) 9 none of = none := by
    intro of
    by_cases hof : of = (9 : Ptr)
    · rw [hof, Function.update_self]
    · simp [Function.update_of_ne hof]
  exact ⟨_, hlast, hfiles, VfsState.fileCount_eq_zero hfiles 2, rfl, _, rfl, rfl, rfl⟩

end EnclaveOS
