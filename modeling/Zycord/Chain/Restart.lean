import Zycord.Chain.Reload

/-!
# A chain that dies and is opened again

A node is a chain over an open store: an action on the chain makes at most one call on the store
(`step_commits`), and the process may die anywhere in it. What the directory then holds opens, as a
store and as a chain: `chain_crash_atomic` says that the chain is the one before the action or the
one after it, whatever the node went through before (`NodeLife`), earlier deaths included. Two such
nodes that name the same block agree on all that is below it (`nodes_agree`).
-/

namespace Zycord.Chain

open List Storage Storage.Session
open Fold (ChainLog Run)

section

variable [Crypto] {p : Params} {hs : Set Header} {log : ChainLog} {s s₁ s' : Session} {c : Chain}
  {a : Action} {call : Call} {d : Disk}

/-! ## One call for an action -/

theorem restored_store (p : Params) (c moved : Chain) (undone : List Block)
    (applied : List Fold.Result) (cause : ChainError) (h : moved.store = c.store) :
    (restored p c moved undone applied cause).2.store = c.store := by
  unfold restored
  split
  · rfl
  · exact h

/-- An action leaves the store as it is or makes one call on it. -/
theorem step_commits (p : Params) (c : Chain) (a : Action) :
    (step p c (a, true)).store = c.store ∨
      ∃ call steps, c.store.plan call = .ok (steps, (step p c (a, true)).store) := by
  cases a with
  | apply b =>
    simp only [step, apply]
    split_ifs
    · exact .inl rfl
    · split
      · exact .inl rfl
      · split
        · exact .inl rfl
        · rename_i hcommit
          simp only [commit, Except.bind_eq_ok, Except.pure_eq_ok] at hcommit
          obtain ⟨store, hstore, rfl⟩ := hcommit
          exact .inr ⟨_, plan_of_commit_store hstore⟩
  | considerBranch br =>
    simp only [step, considerBranch]
    split
    · exact .inl rfl
    · split
      · exact .inl rfl
      · unfold switchTo
        split
        · exact .inl (restored_store _ _ _ _ _ _ rfl)
        · dsimp only
          split
          · exact .inl (restored_store _ _ _ _ _ _ rfl)
          · split
            · rename_i store hstore
              exact .inr ⟨_, plan_of_commit_store hstore⟩
            · exact .inl (restored_store _ _ _ _ _ _ rfl)
  | rollback =>
    simp only [step, rollback]
    split
    · exact .inl rfl
    · split
      · rename_i store hstore
        exact .inr ⟨_, plan_of_commit_store hstore⟩
      · split <;> exact .inl rfl

/-- A call within the limits of the store that takes it to the memory `m`. -/
structure Commits (s : Session) (call : Call) (m : Memory) (s' : Session) : Prop where
  roomy : s.Roomy call
  performed : s.perform call = .ok s'
  memory : s'.memory = m

/-- An action that takes new sequences of a store with room for them makes one such call. -/
theorem commits_of_grows (hstore : c.store = s.memory)
    (hgrows : c.store.nextSeq < (step p c (a, true)).store.nextSeq)
    (hlog : (step p c (a, true)).store.logBytes ≤ 2 ^ 32)
    (hseq : c.store.nextSeq.toNat + 2 ^ 32 < 2 ^ 64)
    (hcounter : c.store.commitCounter.toNat + 3 < 2 ^ 64) :
    ∃ call s', call.transaction ≠ [] ∧ Commits s call (step p c (a, true)).store s' := by
  rcases step_commits p c a with hsame | ⟨call, steps, hplan⟩
  · rw [hsame] at hgrows
    exact absurd hgrows (UInt64.lt_irrefl _)
  · have hne := transaction_ne_nil hplan hgrows
    have hkept : (step p c (a, true)).store.nextSeq ≠ 0 := by
      intro hzero
      rw [hzero] at hgrows
      exact UInt64.not_lt_zero hgrows
    rw [hstore] at hplan hseq hcounter
    have hperform : s.perform call =
        .ok ⟨runSteps s.disk steps, (step p c (a, true)).store⟩ := by rw [perform, hplan]; rfl
    exact ⟨call, _, hne, roomy_of_plan hplan hkept hlog hseq hcounter, hperform, rfl⟩

/-! ## The life of a node -/

/-- What a node can go through: it starts on an empty store, actions return, and the process dies
in the call of an action and the directory is opened again. -/
inductive NodeLife (p : Params) (hs : Set Header) : Session → Chain → Prop
  | started {s₀ s : Session} {c : Chain} {call : Call} (hstore : History Roomy s₀ FinMap.empty)
      (hchain : openWith p true s₀.memory = .ok c) (hcommits : Commits s₀ call c.store s)
      (htip : c.tip ∈ hs) : NodeLife p hs s c
  | idle {s : Session} {c : Chain} {a : Action} (h : NodeLife p hs s c)
      (hheaders : ∀ h ∈ a.headers, h ∈ hs) (hstore : (step p c (a, true)).store = c.store) :
      NodeLife p hs s (step p c (a, true))
  | acted {s s' : Session} {c : Chain} {a : Action} {call : Call} (h : NodeLife p hs s c)
      (hheaders : ∀ h ∈ a.headers, h ∈ hs)
      (hcommits : Commits s call (step p c (a, true)).store s') :
      NodeLife p hs s' (step p c (a, true))
  | died {s s₁ s' : Session} {c c' : Chain} {a : Action} {call : Call} {d : Disk} {n : ℕ}
      (h : NodeLife p hs s c) (hheaders : ∀ h ∈ a.headers, h ∈ hs)
      (hcommits : Commits s call (step p c (a, true)).store s₁) (hcrash : s.CrashIn call d)
      (hopen : openStore n d = .ok s') (hchain : openWith p true s'.memory = .ok c') :
      NodeLife p hs s' c'

/-- A chain on the blocks of `log`, over a store whose files agree with it. -/
structure Alive (p : Params) (hs : Set Header) (s : Session) (c : Chain) (log : ChainLog) :
    Prop where
  sound : Sound s
  store : c.store = s.memory
  canonical : Canonical p False log c
  headers : ∀ e ∈ log, e.1.header ∈ hs
  network : ∃ g, buildGenesis p = .ok g ∧ c.networkID = g.header.id

/-- A store with the records of a chain opens as that chain. -/
theorem Alive.reopens (h : Alive p hs s c log) (hsound : Sound s')
    (hlive : s'.memory.live = c.store.live) :
    ∃ stats, openWith p true s'.memory = .ok { c with store := s'.memory, stats } ∧
      Alive p hs s' { c with store := s'.memory, stats } log := by
  obtain ⟨g, hbuilt, hnetwork⟩ := h.network
  have hsame : ∀ stats, Canonical p False log { c with store := s'.memory, stats } := by
    intro stats
    have hstored := h.canonical.stored
    have hheaded := h.canonical.headed
    rw [← hlive] at hstored hheaded
    exact { h.canonical with stored := hstored, headed := hheaded }
  obtain ⟨stats, hload⟩ := (hsame c.stats).load
  exact ⟨stats, ((hsame c.stats).reopen hbuilt hnetwork true).trans hload, hsound, rfl, hsame stats,
    h.headers, g, hbuilt, hnetwork⟩

section

variable (hp : p.validate = .ok ()) (hnc : NoCollision p hs)

include hp hnc

/-- An action keeps a node alive, with the session that the store moved to. -/
theorem Alive.step (h : Alive p hs s c log) (hheaders : ∀ h ∈ a.headers, h ∈ hs) (hsound : Sound s')
    (hstore : (step p c (a, true)).store = s'.memory) :
    ∃ log', Alive p hs s' (step p c (a, true)) log' := by
  obtain ⟨log', hmoves, hc, hlog⟩ :=
    step_moves hnc h.canonical h.headers (a, true) hheaders fun _ => hp
  exact ⟨log', hsound, hstore, hc, hlog, hmoves.network ▸ h.network⟩

/-- Dying in an action: the store opens, and the chain is the one before it or the one after it. -/
theorem Alive.dies (h : Alive p hs s c log) (hheaders : ∀ h ∈ a.headers, h ∈ hs)
    (hcommits : Commits s call (Chain.step p c (a, true)).store s₁) (hcrash : s.CrashIn call d)
    (n : ℕ) :
    ∃ s' c₁ stats log', openStore n d = .ok s' ∧ (c₁ = c ∨ c₁ = Chain.step p c (a, true)) ∧
      s'.memory.live = c₁.store.live ∧
      openWith p true s'.memory = .ok { c₁ with store := s'.memory, stats } ∧
      Alive p hs s' { c₁ with store := s'.memory, stats } log' := by
  obtain ⟨hsound₁, hlive₁⟩ := h.sound.perform hcommits.roomy hcommits.performed
  obtain ⟨s', hopen, hsound, hlive⟩ := h.sound.reopens hcommits.roomy hcrash n
  rcases hlive with hbefore | hafter
  · rw [← h.store] at hbefore
    obtain ⟨stats, hchain, halive⟩ := h.reopens hsound hbefore
    exact ⟨s', c, stats, log, hopen, .inl rfl, hbefore, hchain, halive⟩
  · obtain ⟨log', hstep⟩ := h.step hp hnc hheaders hsound₁ hcommits.memory.symm
    rw [← hlive₁, hcommits.memory] at hafter
    obtain ⟨stats, hchain, halive⟩ := hstep.reopens hsound hafter
    exact ⟨s', _, stats, log', hopen, .inr rfl, hafter, hchain, halive⟩

/-- Along a node's life there is a log its chain and store agree on. -/
theorem NodeLife.alive (h : NodeLife p hs s c) : ∃ log, Alive p hs s c log := by
  induction h with
  | @started s₀ s c call hstore hchain hcommits htip =>
    obtain ⟨hsound₀, hempty⟩ := hstore.sound
    obtain ⟨e, -, hc⟩ : ∃ e, buildGenesis p = .ok e.1 ∧ Canonical p False [e] c :=
      open_canonical hempty hchain
    obtain ⟨b, -, hbuilt, -, -, -, hnetwork, -⟩ := open_empty_eq_ok hempty hchain
    have hmem : e.1.header = c.tip := Option.some.inj hc.tip
    exact ⟨[e], (hsound₀.perform hcommits.roomy hcommits.performed).1, hcommits.memory.symm, hc,
      by simpa [hmem] using htip, b, hbuilt, hnetwork⟩
  | idle h hheaders hstore ih =>
    obtain ⟨log, hlog⟩ := ih
    exact hlog.step hp hnc hheaders hlog.sound (hstore.trans hlog.store)
  | acted h hheaders hcommits ih =>
    obtain ⟨log, hlog⟩ := ih
    exact hlog.step hp hnc hheaders (hlog.sound.perform hcommits.roomy hcommits.performed).1
      hcommits.memory.symm
  | @died s s₁ s' c c' a call d n h hheaders hcommits hcrash hopen hchain ih =>
    obtain ⟨log, hlog⟩ := ih
    obtain ⟨s'', c₁, stats, log', hopen', -, -, hchain', halive⟩ :=
      hlog.dies hp hnc hheaders hcommits hcrash n
    cases hopen.symm.trans hopen'
    cases hchain.symm.trans hchain'
    exact ⟨log', halive⟩

/-- The chain is crash atomic. Whatever a node went through, deaths included, its chain is the fold
of blocks that link to genesis; an action makes at most one call on the store; and a death anywhere
in that call leaves a directory that opens, with the chain before the action or the one after it:
its state, tip, height and records. -/
theorem chain_crash_atomic (h : NodeLife p hs s c) :
    (∃ log, Canonical p False log c) ∧
    (∀ a, (step p c (a, true)).store = c.store ∨
      ∃ call steps, s.memory.plan call = .ok (steps, (step p c (a, true)).store)) ∧
    ∀ a call s₁ d, (∀ h ∈ a.headers, h ∈ hs) → Commits s call (step p c (a, true)).store s₁ →
      s.CrashIn call d → ∀ n, ∃ s' c₁ stats, openStore n d = .ok s' ∧
        (c₁ = c ∨ c₁ = step p c (a, true)) ∧ s'.memory.live = c₁.store.live ∧
        openWith p true s'.memory = .ok { c₁ with store := s'.memory, stats } ∧
        NodeLife p hs s' { c₁ with store := s'.memory, stats } := by
  obtain ⟨log, halive⟩ := h.alive hp hnc
  refine ⟨⟨log, halive.canonical⟩, fun a => halive.store ▸ step_commits p c a, ?_⟩
  intro a call s₁ d hheaders hcommits hcrash n
  obtain ⟨s', c₁, stats, -, hopen, hwhich, hlive, hchain, -⟩ :=
    halive.dies hp hnc hheaders hcommits hcrash n
  exact ⟨s', c₁, stats, hopen, hwhich, hlive, hchain,
    .died h hheaders hcommits hcrash hopen hchain⟩

/-- A node serves its chain. Whatever it went through, deaths included, its state is the fold of
blocks that its records name, each at its height, and read back; and they name no other. -/
theorem node_serves_chain (h : NodeLife p hs s c) :
    ∃ log, Run p log c.state ∧ log.length = c.height.toNat + 1 ∧
      (∀ e ∈ log, canonicalIDAt c.store.live e.1.header.height = some e.1.header.id ∧
        blockLocked p c.store.live e.1.header.id = .ok e.1) ∧
      ∀ height id, canonicalIDAt c.store.live height = some id →
        ∃ e ∈ log, e.1.header.height = height ∧ e.1.header.id = id := by
  obtain ⟨log, halive⟩ := h.alive hp hnc
  have hc := halive.canonical
  exact ⟨log, hc.run, hc.height_succ.symm,
    fun e he => ⟨canonical_id_at hc he, hc.block_locked hp he⟩, fun _ _ => hc.stored.mem_of_index⟩

/-! ## Nodes that name the same block -/

omit hp hnc in
/-- Linked runs that end in the same block are the same run. -/
theorem run_unique {log' : ChainLog} {t t' : State} (h : Run p log t) (h' : Run p log' t')
    (hlinked : Linked log) (hlinked' : Linked log')
    (hsame : ∀ e ∈ log, ∀ e' ∈ log', e.1.header.id = e'.1.header.id → e.1 = e'.1)
    (htop : log.head?.map (fun e => e.1.header.id) = log'.head?.map fun e => e.1.header.id) :
    log = log' ∧ t = t' := by
  induction h generalizing log' t' with
  | genesis =>
    obtain rfl : log' = [] := by simpa using htop.symm
    cases h'
    exact ⟨rfl, rfl⟩
  | @apply rest s₀ _ b r hrest hheight happly ih =>
    obtain ⟨⟨b', r'⟩, rest', rfl⟩ := exists_cons_of_ne_nil (l := log') (by rintro rfl; simp at htop)
    obtain ⟨s₀', hrest', hheight', happly'⟩ := h'.of_cons
    obtain rfl : b = b' := hsame _ mem_cons_self _ mem_cons_self (by simpa using htop)
    -- both name the same parent, or are at genesis
    have hbelow : rest.head?.map (fun e => e.1.header.id) =
        rest'.head?.map fun e => e.1.header.id := by
      have hlength := hheight.symm.trans hheight'
      cases rest <;> cases rest' <;> simp only [length_nil, length_cons] at hlength
      · rfl
      · omega
      · omega
      · exact congrArg some ((isChain_cons_cons.mp hlinked).1.symm.trans
          (isChain_cons_cons.mp hlinked').1)
    obtain ⟨rfl, rfl⟩ := ih hrest' hlinked.tail hlinked'.tail
      (fun e he e' he' => hsame e (mem_cons_of_mem _ he) e' (mem_cons_of_mem _ he')) hbelow
    cases happly.symm.trans happly'
    exact ⟨rfl, rfl⟩

/-- Nodes agree, whatever they went through: two that name the same block at a height have applied
the same blocks up to it, and two with the same tip are in the same state, as long as the body roots
do not collide on the blocks they hold. -/
theorem nodes_agree {c' : Chain} (h : NodeLife p hs s c) (h' : NodeLife p hs s' c')
    (hbodies : ∀ id b b', blockLocked p c.store.live id = .ok b →
      blockLocked p c'.store.live id = .ok b' → b.computeCertRoot p = b'.computeCertRoot p →
      b.computeCitesRoot p = b'.computeCitesRoot p → b.certs = b'.certs ∧ b.cites = b'.cites) :
    (∀ height id, canonicalIDAt c.store.live height = some id →
      canonicalIDAt c'.store.live height = some id →
      ∃ newer newer' shared, shared.length = height.toNat + 1 ∧
        Run p (newer ++ shared) c.state ∧ Run p (newer' ++ shared) c'.state) ∧
    (c.tip.id = c'.tip.id → c.state = c'.state) := by
  obtain ⟨log, halive⟩ := h.alive hp hnc
  obtain ⟨log', halive'⟩ := h'.alive hp hnc
  have hc := halive.canonical
  have hc' := halive'.canonical
  have hsame : ∀ e ∈ log, ∀ e' ∈ log', e.1.header.id = e'.1.header.id → e.1 = e'.1 := by
    intro e he e' he' hid
    have hheader := hnc.ids (halive.headers e he) (halive'.headers e' he') hid
    obtain ⟨s₀, s₁, hok, -⟩ := hc.run.applied he
    obtain ⟨s₀', s₁', hok', -⟩ := hc'.run.applied he'
    obtain ⟨hcerts, hcites⟩ := hbodies _ _ _ (hc.block_locked hp he)
      (hid ▸ hc'.block_locked hp he') (by rw [hok.certRoot, hok'.certRoot, hheader])
      (by rw [hok.citesRoot, hok'.citesRoot, hheader])
    exact (Block.mk.injEq ..).mpr ⟨hheader, hcerts, hcites⟩
  constructor
  · intro height id hid hid'
    obtain ⟨⟨b, r⟩, he, rfl, hb⟩ := hc.stored.mem_of_index hid
    obtain ⟨e', he', -, hb'⟩ := hc'.stored.mem_of_index hid'
    obtain ⟨newer, older, rfl⟩ := append_of_mem he
    obtain ⟨newer', older', rfl⟩ := append_of_mem he'
    obtain ⟨t, hrun⟩ := hc.run.of_append
    obtain ⟨t', hrun'⟩ := hc'.run.of_append
    obtain ⟨hshared, -⟩ := run_unique hrun hrun' (IsChain.right_of_append hc.linked)
      (IsChain.right_of_append hc'.linked)
      (fun e he e' he' => hsame e (mem_append_right _ he) e' (mem_append_right _ he'))
      (congrArg some (hb.trans hb'.symm))
    exact ⟨newer, newer', _, by rw [length_cons, hc.run.height_eq], hc.run, hshared ▸ hc'.run⟩
  · intro htip
    have htop := congrArg (Option.map Header.id) hc.tip
    have htop' := congrArg (Option.map Header.id) hc'.tip
    rw [Option.map_map] at htop htop'
    exact (run_unique hc.run hc'.run hc.linked hc'.linked hsame
      (htop.trans ((congrArg some htip).trans htop'.symm))).2

end

end

section

attribute [local instance] Reference.crypto

open Sample
open Fold.Sample (params params_validate)

/-- A node that has committed its genesis block. -/
theorem sample_life : ∃ c s, openWith params true emptyStore = .ok c ∧ Story c ∧
    NodeLife params {h | h ∈ seenHeaders c} s c := by
  obtain ⟨c, hopen, hstory⟩ := story
  have hopen := eq_ok_of_to_option hopen
  obtain ⟨s₀, hs₀, hmem⟩ : ∃ s₀, openStore 1000000 Disk.fresh = .ok s₀ ∧ s₀.memory = emptyStore :=
    ⟨_, rfl, rfl⟩
  obtain ⟨-, -, -, -, -, -, -, ⟨b, hstore⟩, -⟩ := open_empty_eq_ok rfl hopen
  obtain ⟨steps, hplan⟩ := plan_of_commit_store hstore
  have hlen : (Call.commit b).transaction.length ≤ 1 := by
    simp only [Call.transaction]
    split <;> simp
  have hroomy : s₀.Roomy (.commit b) := by
    rw [Roomy, hmem]
    exact ⟨by omega, by show 0 + _ < _; omega, by decide⟩
  have hcommits : Commits s₀ (.commit b) c.store ⟨runSteps s₀.disk steps, c.store⟩ :=
    ⟨hroomy, by rw [perform, hmem, hplan]; rfl, rfl⟩
  exact ⟨c, _, hopen, hstory, .started (.opened hs₀) (hmem ▸ hopen) hcommits
    (by simp [seenHeaders])⟩

section

variable {s : Session} {c c' : Chain} {a : Action} (hstory : Story c)

include hstory

/-- The next action of a node of the small chain, as a call on its store. -/
theorem sample_commits (hlife : NodeLife params {h | h ∈ seenHeaders c} s c')
    (hsmall : Small c'.store) (hsmall' : Small (step params c' (a, true)).store)
    (hgrows : c'.store.nextSeq < (step params c' (a, true)).store.nextSeq) :
    ∃ call s', call.transaction ≠ [] ∧ Commits s call (step params c' (a, true)).store s' := by
  obtain ⟨log, halive⟩ := hlife.alive params_validate (no_collision hstory)
  obtain ⟨hseq, hcounter, -⟩ := hsmall
  exact commits_of_grows halive.store hgrows hsmall'.2.2.le (by omega) (by omega)

theorem sample_extended (hlife : NodeLife params {h | h ∈ seenHeaders c} s c) :
    ∃ s', NodeLife params {h | h ∈ seenHeaders c} s' (extended c) := by
  obtain ⟨call, s', -, hcommits⟩ := sample_commits (a := .apply (extension c)) hstory hlife
    (hstory.small _ (by simp)) (hstory.small (extended c) (by simp)) hstory.grows.1
  exact ⟨s', .acted hlife (by simp [Action.headers, seenHeaders]) hcommits⟩

omit hstory in
theorem rival_seen (c : Chain) : ∀ h ∈ (Action.considerBranch (rival c)).headers,
    h ∈ {h | h ∈ seenHeaders c} := fun _ hh => mem_cons_of_mem _ (mem_cons_of_mem _ hh)

/-- The call that takes a node from the extension to the branch. -/
theorem sample_switch (hlife : NodeLife params {h | h ∈ seenHeaders c} s (extended c)) :
    ∃ call s', call.transaction ≠ [] ∧ Commits s call (switched c).store s' ∧
      NodeLife params {h | h ∈ seenHeaders c} s' (switched c) := by
  obtain ⟨call, s', hne, hcommits⟩ := sample_commits (a := .considerBranch (rival c)) hstory hlife
    (hstory.small _ (by simp)) (hstory.small (switched c) (by simp)) hstory.grows.2.1
  exact ⟨call, s', hne, hcommits, .acted hlife (rival_seen c) hcommits⟩

theorem sample_adopted (hlife : NodeLife params {h | h ∈ seenHeaders c} s c) :
    ∃ s', NodeLife params {h | h ∈ seenHeaders c} s' (adopted c) := by
  obtain ⟨call, s', -, hcommits⟩ := sample_commits (a := .considerBranch (rival c)) hstory hlife
    (hstory.small _ (by simp)) (hstory.small (adopted c) (by simp)) hstory.grows.2.2
  exact ⟨s', .acted hlife (rival_seen c) hcommits⟩

end

/-- A node that has applied a block dies while it commits a branch in its place, when the log holds
the whole transaction and the sidecar does not name it yet. -/
theorem sample_chain_crash_atomic :
    ∃ c s call s₁ d, openWith params true emptyStore = .ok c ∧
      NodeLife params {h | h ∈ seenHeaders c} s (extended c) ∧
      Commits s call (switched c).store s₁ ∧ s.CrashIn call d ∧
      ∃ s' c₁ stats, openStore 0 d = .ok s' ∧ s'.memory.live = (switched c).store.live ∧
        (c₁ = extended c ∨ c₁ = switched c) ∧ s'.memory.live = c₁.store.live ∧
        openWith params true s'.memory = .ok { c₁ with store := s'.memory, stats } := by
  obtain ⟨c, s₀, hopen, hstory, hlife₀⟩ := sample_life
  obtain ⟨s, hlife⟩ := sample_extended hstory hlife₀
  obtain ⟨call, s₁, hne, hcommits, -⟩ := sample_switch hstory hlife
  obtain ⟨log, halive⟩ := hlife.alive params_validate (no_collision hstory)
  obtain ⟨d, hfails, hwhole⟩ := halive.sound.fails_whole hcommits.roomy hcommits.performed hne
  obtain ⟨-, -, hdies⟩ := chain_crash_atomic params_validate (no_collision hstory) hlife
  obtain ⟨s', c₁, stats, hdisk, hwhich, hlive, hchain, -⟩ :=
    hdies (.considerBranch (rival c)) call s₁ d (rival_seen c) hcommits hfails.crash_in 0
  obtain ⟨s'', hdisk', -, hview⟩ := hwhole 0
  cases hdisk.symm.trans hdisk'
  exact ⟨c, s, call, s₁, d, hopen, hlife, hcommits, hfails.crash_in, s', c₁, stats, hdisk,
    hview.trans (congrArg Memory.live hcommits.memory), hwhich, hlive, hchain⟩

/-- A node that gave a block up for a branch serves the branch. -/
theorem sample_node_serves_chain :
    ∃ c s log, NodeLife params {h | h ∈ seenHeaders c} s (switched c) ∧
      Run params log (switched c).state ∧ log.length = (switched c).height.toNat + 1 ∧
      ∀ e ∈ log, blockLocked params (switched c).store.live e.1.header.id = .ok e.1 := by
  obtain ⟨c, s₀, -, hstory, hlife₀⟩ := sample_life
  obtain ⟨s₁, hlife₁⟩ := sample_extended hstory hlife₀
  obtain ⟨-, s, -, -, hlife⟩ := sample_switch hstory hlife₁
  obtain ⟨log, hrun, hlength, hserves, -⟩ :=
    node_serves_chain params_validate (no_collision hstory) hlife
  exact ⟨c, s, log, hlife, hrun, hlength, fun e he => (hserves e he).2⟩

/-- A block that a canonical chain reads is a block of its log. -/
theorem Canonical.mem_of_block_locked [Crypto] {p : Params} {log : ChainLog} {c : Chain} {id : Hash}
    {b : Block} (hc : Canonical p False log c) (hp : p.validate = .ok ())
    (h : blockLocked p c.store.live id = .ok b) : b ∈ log.map Prod.fst ∧ b.header.id = id := by
  have hraw : ∃ raw, get c.store.live (.block id) = some raw := by
    unfold blockLocked at h
    split at h
    · cases h
    · exact ⟨_, ‹_›⟩
  obtain ⟨raw, hraw⟩ := hraw
  obtain ⟨e, he, rfl, -⟩ := (hc.records_are.bodies id raw).mp hraw
  cases h.symm.trans (hc.block_locked hp he)
  exact ⟨mem_map_of_mem he, rfl⟩

/-- Two nodes meet on a branch: one applied a block and gave it up for the branch, the other went to
the branch at once. -/
theorem sample_nodes_agree :
    ∃ c s s', NodeLife params {h | h ∈ seenHeaders c} s (switched c) ∧
      NodeLife params {h | h ∈ seenHeaders c} s' (adopted c) ∧
      (switched c).tip.id = (adopted c).tip.id ∧ (switched c).state = (adopted c).state := by
  obtain ⟨c, s₀, hopen, hstory, hlife₀⟩ := sample_life
  obtain ⟨s₁, hlife₁⟩ := sample_extended hstory hlife₀
  obtain ⟨-, s, -, -, hlife⟩ := sample_switch hstory hlife₁
  obtain ⟨s', hlife'⟩ := sample_adopted hstory hlife₀
  obtain ⟨e, e', hc, hc₁, he, hseen, hseen'⟩ := extended_canonical hopen hstory
  have hgenesis : e'.1.header ∈ seenHeaders c := by simp [hseen', seenHeaders]
  obtain ⟨log, hlog, hblocks⟩ := rival_canonical [e] hstory hc₁
    (by simp [hseen, hgenesis]) (by simpa [he] using hstory.switches)
  obtain ⟨log', hlog', hblocks'⟩ := rival_canonical [] hstory hc
    (by simp [hgenesis]) hstory.adopts
  -- the blocks of both chains are those of the branch and the genesis block, told apart by their
  -- ids
  have hnodup : (((rival c).reverse ++ [e'.1]).map fun b => b.header.id).Nodup := by
    have hids := hstory.ids
    simp only [seenHeaders, map_cons, nodup_cons, headers, map_map] at hids
    rw [map_append, map_reverse, nodup_append]
    refine ⟨nodup_reverse.mpr hids.2.2, nodup_singleton _, fun x hx y hy => ?_⟩
    rintro rfl
    obtain rfl : x = c.tip.id := by simpa [hseen'] using hy
    exact hids.1 (mem_cons_of_mem _ (mem_reverse.mp hx))
  have htip : (switched c).tip = (adopted c).tip := by
    have htop : ((log.map Prod.fst).head?).map Block.header = some (switched c).tip := by
      rw [head?_map, Option.map_map]
      exact hlog.tip
    have htop' : ((log'.map Prod.fst).head?).map Block.header = some (adopted c).tip := by
      rw [head?_map, Option.map_map]
      exact hlog'.tip
    rw [hblocks] at htop
    rw [hblocks'] at htop'
    exact Option.some.inj (htop.symm.trans htop')
  refine ⟨c, s, s', hlife, hlife', congrArg Header.id htip, ?_⟩
  refine (nodes_agree params_validate (no_collision hstory) hlife hlife' ?_).2
    (congrArg Header.id htip)
  intro id b b' hb hb' _ _
  obtain ⟨hmem, hid⟩ := hlog.mem_of_block_locked params_validate hb
  obtain ⟨hmem', hid'⟩ := hlog'.mem_of_block_locked params_validate hb'
  rw [hblocks] at hmem
  rw [hblocks'] at hmem'
  obtain rfl : b = b' := inj_on_of_nodup_map hnodup hmem hmem' (hid.trans hid'.symm)
  exact ⟨rfl, rfl⟩

end

end Zycord.Chain
