import Zycord.Chain.TotalWork

/-!
# The search for the fork point

How a syncing node finds the highest block it shares with a peer: it backs off exponentially from a
height known to be on the peer's branch, and then bisects what is left, one window of headers a
request. The peer is any function of the conversation so far.

`Search.Sound.advance` is the step: the answer stays between the last height that the peer served
and that is ours, and the lowest known to be on its branch. `fork_point_exact` is the whole search.
-/

namespace Zycord.Sync

open Chain List Option
open Storage (Live)

section

variable [Crypto] {ε : Type}

/-! ## One window -/

/-- What one probe learned about a window of heights. `diverged` says that a header arrived at the
height it was asked for and named another block than ours. -/
structure SharedWindow where
  served : Bool
  top : ℕ
  matched : Bool
  diverged : Bool
deriving DecidableEq

/-- Read an answer against our chain, from a height on, no further than `count` headers. Every
height asked for is below one that is known, so that counting them does not wrap. -/
def readWindow (live : Live) : ℕ → ℕ → List Header → SharedWindow → SharedWindow
  | first, count + 1, h :: rest, w =>
    if h.height.toNat ≠ first then w
    else if canonicalIDAt live h.height ≠ some h.id then { w with diverged := true }
    else readWindow live (first + 1) count rest { w with top := first, matched := true }
  | _, _, _, w => w

/-- What an answer says about a window. -/
def probeShared (live : Live) (first count : ℕ) (headers : List Header) : SharedWindow :=
  readWindow live first count headers ⟨!headers.isEmpty, 0, false, false⟩

/-- An answer holds our own block of a height. -/
def OursAt (live : Live) (first count : ℕ) (headers : List Header) (height : ℕ) : Prop :=
  ∃ i h, i < count ∧ headers[i]? = some h ∧ first + i = height ∧ h.height.toNat = height ∧
    canonicalIDAt live h.height = some h.id

theorem read_window_top {live : Live} {first count : ℕ} {headers : List Header} {w : SharedWindow}
    (h : (readWindow live first count headers w).matched = true) :
    w.matched = true ∧ (readWindow live first count headers w).top = w.top ∨
      OursAt live first count headers (readWindow live first count headers w).top := by
  fun_induction readWindow live first count headers w with
  | case1 => exact .inl ⟨h, rfl⟩
  | case2 => exact .inl ⟨h, rfl⟩
  | case3 first count hdr rest w hheight hid ih =>
    rw [not_not] at hheight hid
    rcases ih h with ⟨-, htop⟩ | ⟨i, hdr', hi, hget, hsum, hrest⟩
    · exact .inr ⟨0, hdr, by omega, rfl, htop.symm, hheight.trans htop.symm, hid⟩
    · exact .inr ⟨i + 1, hdr', by omega, hget, by omega, hrest⟩
  | case4 => exact .inl ⟨h, rfl⟩

/-! ## The search -/

/-- A request to the peer, and its answer. -/
structure Exchange (ε : Type) where
  first : ℕ
  count : ℕ
  reply : Except ε (List Header)

/-- The peer's answer to a request for `count` headers from a height on may depend on the whole
conversation, the newest exchange last. -/
abbrev HeaderSource (ε : Type) := List (Exchange ε) → ℕ → ℕ → Except ε (List Header)

/-- What the search returns: a height, nothing this time, that nothing is shared within the undo
horizon, or the error of a request. -/
inductive Verdict (ε : Type) where
  | anchored (height : ℕ)
  | undecided
  | doesNotAttach (undoDepth : UInt64)
  | failed (e : ε)
deriving DecidableEq

/-- The two loops: `hi` is the lowest height known to be on the peer's branch and `lo` the highest
known to be shared. -/
inductive Search where
  | backOff (hi step : ℕ)
  | bisect (lo hi : ℕ)

namespace Search

/-- The lowest height known to differ. -/
def hi : Search → ℕ
  | .backOff hi _ => hi
  | .bisect _ hi => hi

/-- The highest height known to agree. -/
def lo : Search → Option ℕ
  | .backOff _ _ => none
  | .bisect lo _ => some lo

/-- The lowest height at which a branch may leave our chain. -/
def floor (p : Params) (c : Chain) : ℕ := c.height.toNat - p.undoDepth.toNat

/-- The head of either loop: it ends the search or asks for a window. -/
def ask (p : Params) (c : Chain) (batch : ℕ) : Search → Verdict ε ⊕ ℕ × ℕ
  | .backOff hi step =>
    if hi ≤ floor p c then .inl (.doesNotAttach p.undoDepth)
    -- genesis is shared by definition and never requested
    else if hi = 1 then .inl (.anchored 0)
    else
      let first := max (if hi - floor p c > step then hi - step else floor p c) 1
      .inr (first, min (hi - first) batch)
  | .bisect lo hi =>
    if hi - lo > 1 then
      let mid := lo + (hi - lo) / 2
      .inr (mid, min (hi - mid) batch)
    else .inl (.anchored lo)

/-- What is returned when a probe decided nothing. -/
def quiet : Search → Verdict ε
  | .backOff _ _ => .undecided
  | .bisect lo _ => .anchored lo

/-- Go on below a height that is not shared. -/
def descend (first : ℕ) : Search → Search
  | .backOff _ step => .backOff first (step * 2 % 2 ^ 64)
  | .bisect lo _ => .bisect lo first

/-- The body of either loop, once the window is read. -/
def narrow (first : ℕ) (w : SharedWindow) (s : Search) : Verdict ε ⊕ Search :=
  if !w.served || (!w.matched && !w.diverged) then .inl s.quiet
  else if !w.matched then .inr (s.descend first)
  else if w.diverged || w.top + 1 == s.hi then .inl (.anchored w.top)
  else .inr (.bisect w.top s.hi)

/-- One request. -/
def advance (p : Params) (c : Chain) (source : HeaderSource ε) (batch : ℕ) (s : Search)
    (talk : List (Exchange ε)) : (Verdict ε ⊕ Search) × List (Exchange ε) :=
  match s.ask p c batch with
  | .inl v => (.inl v, talk)
  | .inr (first, count) =>
    let reply := source talk first count
    (match reply with
      | .error e => .inl (.failed e)
      | .ok headers => s.narrow first (probeShared c.store.live first count headers),
      talk ++ [⟨first, count, reply⟩])

/-- Requests until there is a verdict. -/
def run (p : Params) (c : Chain) (source : HeaderSource ε) (batch : ℕ) :
    ℕ → Search → List (Exchange ε) → Option (Verdict ε) × List (Exchange ε)
  | 0, _, talk => (none, talk)
  | fuel + 1, s, talk =>
    match s.advance p c source batch talk with
    | (.inl v, talk) => (some v, talk)
    | (.inr s, talk) => run p c source batch fuel s talk

end Search

/-- Search for the fork point below a height at which the peer's block is not ours, for at most
`fuel` rounds of the loops. -/
def forkPoint (p : Params) (c : Chain) (source : HeaderSource ε) (disagreesAt : UInt64)
    (batch : UInt32) (fuel : ℕ) : Option (Verdict ε) × List (Exchange ε) :=
  Search.run p c source batch.toNat fuel (.backOff disagreesAt.toNat 1) []

/-! ## One step -/

/-- A peer with a chain of its own that answers every request for some of its headers with the
first of them. -/
structure HonestPeer (source : HeaderSource ε) (peer : List Header) : Prop where
  heights : ∀ (i : ℕ) (h : Header), peer[i]? = some h → h.height.toNat = i
  linked : peer.IsChain Follows
  serves : ∀ talk first count, 0 < count → first + count ≤ peer.length →
    ∃ k, 0 < k ∧ k ≤ count ∧ source talk first count = .ok ((peer.drop first).take k)

namespace Search

variable {p : Params} {c : Chain} {source : HeaderSource ε} {batch d : ℕ} {s : Search}
  {talk : List (Exchange ε)} {live : Live} {fork first : ℕ} {peer : List Header}

/-- The loops are below the height they started from, and the step of the back-off has not
wrapped: it is at most what was descended, until the descent reaches its floor. -/
def Within (floor d : ℕ) : Search → Prop
  | .backOff hi step => hi ≤ d ∧ (hi ≤ max floor 1 ∨ 0 < step ∧ hi + step ≤ d + 1)
  | .bisect lo hi => lo < hi ∧ hi ≤ d

/-- How much is left to search. -/
def gap (s : Search) : ℕ := s.hi - s.lo.getD 0

omit [Crypto] in
/-- Each round of the search gives a verdict or asks for a window. -/
theorem ask_cases (batch : ℕ) (hd : d < 2 ^ 64) (hs : s.Within (floor p c) d) :
    s.lo = none ∧ s.hi ≤ floor p c ∧
      s.ask p c batch = .inl (.doesNotAttach p.undoDepth : Verdict ε) ∨
    (∃ lo, s.lo.getD 0 = lo ∧ (s.lo = none → floor p c = 0) ∧ s.hi = lo + 1 ∧
      s.ask p c batch = .inl (.anchored lo : Verdict ε)) ∨
    ∃ first, s.ask p c batch = (.inr (first, min (s.hi - first) batch) : Verdict ε ⊕ ℕ × ℕ) ∧
      s.lo.getD 0 < first ∧ first < s.hi ∧ (s.lo = none → floor p c ≤ first) ∧
      (s.descend first).Within (floor p c) d := by
  cases s with
  | backOff hi step =>
    obtain ⟨hhi, hstep⟩ := hs
    rw [ask]
    split
    · exact .inl ⟨rfl, ‹_›, rfl⟩
    split
    · exact .inr (.inl ⟨0, rfl, fun _ => by omega, by simpa [Search.hi], rfl⟩)
    · refine .inr (.inr ⟨_, rfl, ?_⟩)
      simp only [lo, getD_none, Search.hi, descend, Within, forall_const]
      split <;> omega
  | bisect lo hi =>
    obtain ⟨hlt, hhi⟩ := hs
    rw [ask]
    split
    · refine .inr (.inr ⟨_, rfl, ?_⟩)
      simp only [Search.lo, getD_some, Search.hi, descend, Within, reduceCtorEq,
        false_implies, true_and]
      omega
    · exact .inr (.inl ⟨lo, rfl, nofun, by simp only [Search.hi]; omega, rfl⟩)

/-- Our chain and that of an honest peer share the heights up to `fork`, below `d`. -/
structure Forked (live : Live) (source : HeaderSource ε) (d fork : ℕ) (peer : List Header) : Prop
    extends HonestPeer source peer where
  reaches : d < peer.length
  below : fork < d
  shared : ∀ (i : ℕ) (h : Header), peer[i]? = some h →
    (canonicalIDAt live h.height = some h.id ↔ i ≤ fork)

/-- A window of a peer that forks shows how far it is shared. -/
theorem Forked.read_window (h : Forked live source d fork peer) {count k : ℕ} (hk : 0 < k)
    (hcount : k ≤ count) (hend : first + k ≤ peer.length) (w : SharedWindow) :
    readWindow live first count ((peer.drop first).take k) w = if first ≤ fork then
        ⟨w.served, min fork (first + k - 1), true, w.diverged || decide (fork + 1 < first + k)⟩
      else { w with diverged := true } := by
  induction k generalizing first count w with
  | zero => omega
  | succ k ih =>
    obtain ⟨n, rfl⟩ : ∃ n, count = n + 1 := ⟨count - 1, by omega⟩
    have hlt : first < peer.length := by omega
    have hget : peer[first]? = some peer[first] := getElem?_eq_getElem hlt
    have hours := h.shared _ _ hget
    rw [drop_eq_getElem_cons hlt, take_succ_cons, readWindow,
      if_neg (not_not.mpr (h.heights _ _ hget))]
    by_cases hle : first ≤ fork
    · rw [if_neg (not_not.mpr (hours.mpr hle)), if_pos hle]
      rcases Nat.eq_zero_or_pos k with rfl | hk
      · rw [readWindow]
        · simp only [SharedWindow.mk.injEq, true_and]
          exact ⟨by omega, by simp; omega⟩
        · simp
      · rw [ih hk (by omega) (by omega)]
        split <;> simp only [SharedWindow.mk.injEq, true_and]
        · exact ⟨by omega, by rw [add_right_comm, add_assoc first]⟩
        · exact ⟨by omega, by simp; omega⟩
    · rw [if_pos (mt hours.mp hle), if_neg hle]

/-- The peer served our block of a height. -/
def Served (live : Live) (talk : List (Exchange ε)) (height : ℕ) : Prop :=
  ∃ x ∈ talk, ∃ headers, x.reply = .ok headers ∧ OursAt live x.first x.count headers height

/-- Where the search stands: the known shared height was served and, if the peer is honest, the
fork is between the two bounds. -/
structure Sound (p : Params) (c : Chain) (source : HeaderSource ε) (batch d : ℕ) (s : Search)
    (talk : List (Exchange ε)) : Prop where
  within : s.Within (floor p c) d
  served : ∀ lo ∈ s.lo, Served c.store.live talk lo
  fork : ∀ fork peer, 0 < batch → Forked c.store.live source d fork peer →
    fork < s.hi ∧ ∀ lo ∈ s.lo, floor p c ≤ lo ∧ lo ≤ fork

/-- What a verdict may be. -/
structure Exact (p : Params) (c : Chain) (source : HeaderSource ε) (batch d : ℕ) (v : Verdict ε)
    (talk : List (Exchange ε)) : Prop where
  anchored : ∀ height, v = .anchored height →
    height < d ∧ (height = 0 ∨ Served c.store.live talk height)
  fork : ∀ fork peer, 0 < batch → Forked c.store.live source d fork peer →
    v = if floor p c ≤ fork then .anchored fork else .doesNotAttach p.undoDepth

/-- What a window of an honest peer says about the fork. -/
def Informs (fork first : ℕ) (w : SharedWindow) : Prop :=
  w.served = true ∧
    (first ≤ fork ∧ w.matched = true ∧ w.top ≤ fork ∧ (w.diverged = true → w.top = fork) ∨
      fork < first ∧ w.matched = false ∧ w.diverged = true)

theorem Forked.informs (h : Forked live source d fork peer) (talk : List (Exchange ε))
    (first : ℕ) {count : ℕ} (hcount : 0 < count) (hend : first + count ≤ peer.length) :
    ∃ headers, source talk first count = .ok headers ∧
      Informs fork first (probeShared live first count headers) := by
  obtain ⟨k, hk, hle, hreply⟩ := h.serves talk first count hcount hend
  refine ⟨_, hreply, ?_⟩
  have hsome : ((peer.drop first).take k).isEmpty = false := by
    rw [isEmpty_eq_false_iff, ← length_pos_iff, length_take, length_drop]
    omega
  rw [probeShared, h.read_window hk hle (by omega), hsome]
  split
  · refine ⟨rfl, .inl ⟨‹_›, rfl, min_le_left _ _, fun hdiv => ?_⟩⟩
    simp only [Bool.false_or, decide_eq_true_eq] at hdiv
    dsimp only
    omega
  · exact ⟨rfl, .inr ⟨by omega, rfl, rfl⟩⟩

omit [Crypto] in
theorem Within.bounds {floor : ℕ} (h : s.Within floor d) : s.hi ≤ d ∧ ∀ lo ∈ s.lo, lo < s.hi := by
  cases s with
  | backOff hi step => exact ⟨h.1, nofun⟩
  | bisect lo hi => exact ⟨h.2, fun _ hlo => some.inj hlo ▸ h.1⟩

theorem Served.append {height : ℕ} (h : Served live talk height) (x : Exchange ε) :
    Served live (talk ++ [x]) height := by
  obtain ⟨y, hy, hrest⟩ := h
  exact ⟨y, mem_append_left _ hy, hrest⟩

/-- What one request leads to. -/
def Steps (p : Params) (c : Chain) (source : HeaderSource ε) (batch d : ℕ) (s : Search)
    (talk : List (Exchange ε)) : Verdict ε ⊕ Search → Prop
  | .inl v => Exact p c source batch d v talk
  | .inr s' => Sound p c source batch d s' talk ∧ s'.gap < s.gap

section

variable (h : Sound p c source batch d s talk)

include h

/-- A window read narrows the search and keeps it sound. -/
theorem Sound.narrow {w : SharedWindow} (hlow : s.lo.getD 0 < first) (hhigh : first < s.hi)
    (hdescend : (s.descend first).Within (floor p c) d)
    (htop : w.matched = true → first ≤ w.top ∧ w.top < s.hi ∧ Served c.store.live talk w.top)
    (hhonest : ∀ fork peer, 0 < batch → Forked c.store.live source d fork peer →
      floor p c ≤ first ∧ Informs fork first w) :
    Steps p c source batch d s talk (s.narrow first w) := by
  obtain ⟨hhi, hlt⟩ := h.within.bounds
  rw [Search.narrow]
  split
  -- the probe decided nothing
  · rename_i hquiet
    refine ⟨fun height hv => ?_, fun fork peer hbatch hfork => ?_⟩
    · cases s with
      | backOff => cases hv
      | bisect lo hi =>
        obtain rfl : lo = height := Verdict.anchored.inj hv
        exact ⟨(hlt lo rfl).trans_le hhi, .inr (h.served lo rfl)⟩
    · obtain ⟨-, hserved, ⟨-, hmatched, -⟩ | ⟨-, -, hdiverged⟩⟩ := hhonest fork peer hbatch hfork
      · simp [hserved, hmatched] at hquiet
      · simp [hserved, hdiverged] at hquiet
  split
  -- the whole window is on the peer's branch
  · rename_i hmatched
    have hlo : (s.descend first).lo = s.lo := by cases s <;> rfl
    have hhi' : (s.descend first).hi = first := by cases s <;> rfl
    refine ⟨⟨hdescend, hlo ▸ h.served, fun fork peer hbatch hfork => ?_⟩, ?_⟩
    · obtain ⟨-, -, ⟨-, htrue, -⟩ | ⟨hbelow, -⟩⟩ := hhonest fork peer hbatch hfork
      · simp [htrue] at hmatched
      · rw [hlo, hhi']
        exact ⟨hbelow, (h.fork fork peer hbatch hfork).2⟩
    · rw [gap, gap, hlo]
      omega
  obtain ⟨hle, hbelow, hours⟩ := htop (by simpa using ‹¬ (!w.matched) = true›)
  split
  -- the last shared height is next to one that is not
  · rename_i hdone
    refine ⟨fun height hv => ?_, fun fork peer hbatch hfork => ?_⟩
    · obtain rfl : w.top = height := Verdict.anchored.inj hv
      exact ⟨by omega, .inr hours⟩
    · have hlt := (h.fork fork peer hbatch hfork).1
      obtain ⟨hfloor, -, ⟨hfirst, -, htop, hdiverged⟩ | ⟨-, hfalse, -⟩⟩ :=
        hhonest fork peer hbatch hfork
      · rw [Bool.or_eq_true, beq_iff_eq] at hdone
        have heq : w.top = fork := hdone.elim hdiverged fun hnext => by omega
        rw [if_pos (by omega), heq]
      · simp [hfalse] at *
  -- the shared run stopped short
  · refine ⟨⟨⟨hbelow, hhi⟩, fun lo hlo => ?_, fun fork peer hbatch hfork => ?_⟩, ?_⟩
    · obtain rfl : w.top = lo := some.inj hlo
      exact hours
    · obtain ⟨hfloor, -, ⟨hfirst, -, htop, -⟩ | ⟨-, hfalse, -⟩⟩ := hhonest fork peer hbatch hfork
      · refine ⟨(h.fork fork peer hbatch hfork).1, fun lo hlo => ?_⟩
        obtain rfl : w.top = lo := some.inj hlo
        omega
      · simp [hfalse] at *
    · show s.hi - w.top < s.gap
      rw [gap]
      omega

/-- One round of the search. It makes a request only where something is left to search. -/
theorem Sound.advance (hd : d < 2 ^ 64) :
    Steps p c source batch d s (s.advance p c source batch talk).2
        (s.advance p c source batch talk).1 ∧
      (s.advance p c source batch talk).2.length ≤ talk.length + 1 ∧
      (s.gap = 0 → (s.advance p c source batch talk).2 = talk) := by
  obtain ⟨hhi, hlt⟩ := h.within.bounds
  rcases ask_cases (ε := ε) batch hd h.within with
    ⟨-, hfloor, hask⟩ | ⟨lo, hlo, hgenesis, hone, hask⟩ |
      ⟨first, hask, hlow, hhigh, hfloor, hdescend⟩ <;> rw [Search.advance, hask]
  · refine ⟨⟨nofun, fun fork peer hbatch hfork => ?_⟩, by simp, fun _ => rfl⟩
    have := (h.fork fork peer hbatch hfork).1
    rw [if_neg (by omega)]
  · refine ⟨⟨fun height hv => ?_, fun fork peer hbatch hfork => ?_⟩, by simp, fun _ => rfl⟩
    · obtain rfl : lo = height := Verdict.anchored.inj hv
      refine ⟨by omega, ?_⟩
      cases hs : s.lo with
      | none => exact .inl (by rw [← hlo, hs, getD_none])
      | some lo' =>
        rw [hs] at hlo
        exact .inr (hlo ▸ h.served lo' hs)
    · obtain ⟨hbelow, hshared⟩ := h.fork fork peer hbatch hfork
      cases hs : s.lo with
      | none =>
        have := hgenesis hs
        rw [hs, getD_none] at hlo
        rw [if_pos (by omega), show fork = lo by omega]
      | some lo' =>
        rw [hs, getD_some] at hlo
        have := hshared lo' hs
        rw [if_pos (by omega), show fork = lo by omega]
  · refine ⟨?_, by simp, fun hgap => by rw [gap] at hgap; omega⟩
    have hfloor : ∀ fork peer, 0 < batch → Forked c.store.live source d fork peer →
        floor p c ≤ first := by
      intro fork peer hbatch hfork
      cases hs : s.lo with
      | none => exact hfloor hs
      | some lo =>
        have := ((h.fork fork peer hbatch hfork).2 lo hs).1
        rw [hs, getD_some] at hlow
        omega
    have hcount : 0 < batch → 0 < min (s.hi - first) batch := fun hbatch => by omega
    have hinforms := fun fork peer hbatch (hfork : Forked c.store.live source d fork peer) =>
      hfork.informs talk first (hcount hbatch) (by have := hfork.reaches; omega)
    dsimp only
    cases hreply : source talk first (min (s.hi - first) batch) with
    | error e =>
      refine ⟨nofun, fun fork peer hbatch hfork => ?_⟩
      obtain ⟨headers, hok, -⟩ := hinforms fork peer hbatch hfork
      cases hreply.symm.trans hok
    | ok headers =>
      have hsound : Sound p c source batch d s
          (talk ++ [⟨first, min (s.hi - first) batch, .ok headers⟩]) :=
        ⟨h.within, fun lo hlo => (h.served lo hlo).append _, h.fork⟩
      refine hsound.narrow hlow hhigh hdescend (fun hmatched => ?_) fun fork peer hbatch hfork => ?_
      · rcases read_window_top hmatched with ⟨hfalse, -⟩ | hours
        · cases hfalse
        · have ⟨i, hdr, hi, _, hsum, _⟩ := hours
          exact ⟨by rw [probeShared]; omega, by rw [probeShared]; omega,
            _, mem_append_right _ (mem_singleton_self _), headers, rfl, hours⟩
      · obtain ⟨headers', hok, hw⟩ := hinforms fork peer hbatch hfork
        obtain rfl : headers = headers' := Except.ok.inj (hreply.symm.trans hok)
        exact ⟨hfloor fork peer hbatch hfork, hw⟩

/-- The rounds of the search: with enough of them it ends, after as many requests as there were
heights left to search, at most. -/
theorem Sound.run (hd : d < 2 ^ 64) {fuel : ℕ} (hfuel : s.gap < fuel) :
    ∃ v talk', Search.run p c source batch fuel s talk = (some v, talk') ∧
      Exact p c source batch d v talk' ∧ talk'.length ≤ talk.length + s.gap := by
  induction fuel generalizing s talk with
  | zero => omega
  | succ fuel ih =>
    have hadvance := h.advance hd
    rw [Search.run]
    generalize s.advance p c source batch talk = x at hadvance ⊢
    obtain ⟨v | s', talk'⟩ := x <;> obtain ⟨hsteps, hlength, hsame⟩ := hadvance <;>
      dsimp only at hsteps hlength hsame
    · refine ⟨v, talk', rfl, hsteps, ?_⟩
      rcases Nat.eq_zero_or_pos s.gap with hgap | hgap
      · simp [hsame hgap]
      · omega
    · obtain ⟨hsound, hgap⟩ := hsteps
      obtain ⟨v, talk'', hrun, hexact, hle⟩ := ih hsound (by omega)
      exact ⟨v, talk'', hrun, hexact, by omega⟩

end

end Search

/-! ## The whole search -/

theorem agree_of_le {chain peer : List Header} (hchain : chain.IsChain Follows)
    (hpeer : peer.IsChain Follows) (hids : Set.InjOn Header.id {h | h ∈ chain ∨ h ∈ peer})
    {i j : ℕ} (hle : i ≤ j) (hj : j < peer.length) (hagree : chain[j]? = peer[j]?) :
    chain[i]? = peer[i]? := by
  induction j, hle using Nat.le_induction with
  | base => exact hagree
  | succ j hle ih =>
    have hj' : j + 1 < chain.length := by
      rw [getElem?_eq_getElem hj] at hagree
      exact (List.getElem?_eq_some_iff.mp hagree).1
    have hours := (isChain_iff_getElem.mp hchain j hj').1
    have htheirs := (isChain_iff_getElem.mp hpeer j hj).1
    rw [getElem?_eq_getElem hj, getElem?_eq_getElem hj', some.injEq] at hagree
    rw [hagree, htheirs] at hours
    have heq : chain[j] = peer[j] := hids (.inl (getElem_mem _)) (.inr (getElem_mem _)) hours.symm
    refine ih (by omega) ?_
    rw [getElem?_eq_getElem (by omega), getElem?_eq_getElem (by omega), heq]

/-- Whatever the peer answers, the search ends after no more requests than there are heights below
the disagreement, and a height it returns is below that and is genesis or one at which the peer
served our own block. If the peer is honest it returns the highest height at which the two chains
agree, when that is within the undo horizon, and refuses otherwise. -/
theorem fork_point_exact (p : Params) (c : Chain) (source : HeaderSource ε) (disagreesAt : UInt64)
    (batch : UInt32) {fuel : ℕ} (hfuel : disagreesAt.toNat < fuel) :
    ∃ v talk, forkPoint p c source disagreesAt batch fuel = (some v, talk) ∧
      talk.length ≤ disagreesAt.toNat ∧
      (∀ height, v = .anchored height →
        height < disagreesAt.toNat ∧ (height = 0 ∨ Search.Served c.store.live talk height)) ∧
      ∀ chain peer fork, IndexIs c.store.live chain → HonestPeer source peer →
        Set.InjOn Header.id {h | h ∈ chain ∨ h ∈ peer} → 0 < batch →
        disagreesAt.toNat < peer.length →
        chain[disagreesAt.toNat]? ≠ peer[disagreesAt.toNat]? →
        IsGreatest {i | i < peer.length ∧ chain[i]? = peer[i]?} fork →
        v = if c.height.toNat - p.undoDepth.toNat ≤ fork then .anchored fork
          else .doesNotAttach p.undoDepth := by
  have hstart : Search.Sound p c source batch.toNat disagreesAt.toNat
      (.backOff disagreesAt.toNat 1) [] :=
    ⟨⟨le_refl _, .inr ⟨one_pos, le_refl _⟩⟩, nofun, fun _ _ _ h => ⟨h.below, nofun⟩⟩
  obtain ⟨v, talk, hrun, hexact, hlength⟩ := hstart.run disagreesAt.toNat_lt hfuel
  refine ⟨v, talk, hrun, by simpa [Search.gap, Search.hi, Search.lo] using hlength,
    hexact.anchored, ?_⟩
  intro chain peer fork hindex hpeer hids hbatch hreaches hdiffer hfork
  have hagree : ∀ i < peer.length, (chain[i]? = peer[i]? ↔ i ≤ fork) := fun i hi =>
    ⟨fun h => hfork.2 ⟨hi, h⟩, fun hle =>
      agree_of_le hindex.linked hpeer.linked hids hle hfork.1.1 hfork.1.2⟩
  refine hexact.fork fork peer (UInt32.lt_iff_toNat_lt.mp hbatch)
    ⟨hpeer, hreaches, ?_, fun i h hget => ?_⟩
  · rw [ne_eq, hagree _ hreaches] at hdiffer
    omega
  · have hi := (List.getElem?_eq_some_iff.mp hget).1
    rw [← hagree i hi, hindex.ids, hpeer.heights i h hget, hget, map_eq_some_iff]
    refine ⟨fun ⟨ours, hours, heq⟩ => ?_, fun hours => ⟨h, hours, rfl⟩⟩
    rw [hours, hids (.inl (mem_of_getElem? hours)) (.inr (mem_of_getElem? hget)) heq]

end

section

attribute [local instance] Reference.crypto

open Chain.Sample Fold.Sample

namespace Sample

/-- A peer that serves one header a request, however many are asked for. -/
def servingOne (peer : List Header) : HeaderSource Unit := fun _ first _ =>
  .ok ((peer.drop first).take 1)

/-- Headers above a given one, each on the one before it. -/
def above : ℕ → Header → List Header
  | 0, _ => []
  | n + 1, h =>
    let next := { h with height := h.height + 1, parentID := h.id }
    next :: above n next

/-- The chain of a peer that shares the extension and has five blocks above it. -/
def peerChain (c : Chain) : List Header :=
  c.tip :: (extension c).header :: above 5 (extension c).header

/-- Room to unwind 128 blocks. -/
def deepUndo : Params := { params with undoDepth := 128 }

/-- The search of a node with the extension, from six blocks up. -/
def search (c : Chain) : Option (Verdict Unit) × List (Exchange Unit) :=
  forkPoint deepUndo (extended c) (servingOne (peerChain c)) 6 128 7

set_option maxRecDepth 20000 in
theorem peer_chain_facts : ∃ c, (openWith params true emptyStore).toOption = some c ∧
    ((peerChain c).map Header.id).Nodup ∧
    (peerChain c).map (fun h => h.height.toNat) = range 7 ∧
    (search c).2.map (fun x => (x.first, x.count)) = [(5, 1), (3, 2), (1, 2), (2, 1)] := by
  decide +kernel

theorem above_linked (n : ℕ) (h : Header) : (h :: above n h).IsChain Follows := by
  induction n generalizing h with
  | zero => exact isChain_singleton h
  | succ n ih => exact isChain_cons_cons.mpr ⟨⟨rfl, rfl⟩, ih _⟩

theorem peer_chain_linked (c : Chain) : (peerChain c).IsChain Follows := by
  refine isChain_cons_cons.mpr ⟨?_, above_linked 5 _⟩
  simp only [extension, child, Fold.assemble]
  repeat' split
  all_goals exact ⟨rfl, rfl⟩

end Sample

open Sample

/-- A node with one block above genesis and a peer with five more: three probes of the back-off, the
last of which finds the shared block in a reply that was cut short, and one of the bisection. -/
theorem sample_fork_point_exact :
    ∃ c, Chain.openWith params true emptyStore = .ok c ∧ (search c).1 = some (.anchored 1) ∧
      (search c).2.map (fun x => (x.first, x.count)) = [(5, 1), (3, 2), (1, 2), (2, 1)] := by
  obtain ⟨c, hopened, hstory⟩ := story
  obtain ⟨c', hopened', hids, hheights, htalk⟩ := peer_chain_facts
  obtain rfl : c = c' := some.inj (hopened.symm.trans hopened')
  have hopen := eq_ok_of_to_option hopened
  obtain ⟨e, e', -, hc, he, -, htip⟩ := extended_canonical hopen hstory
  have hindex := hc.index_is
  have hchain : ascending [e, e'] = [c.tip, (extension c).header] := by simp [ascending, he, htip]
  rw [canonical_headers_eq_ascending hc, hchain] at hindex
  have hlength : (peerChain c).length = 7 := by simpa using congrArg length hheights
  have hheight : ∀ (i : ℕ) (h : Header), (peerChain c)[i]? = some h → h.height.toNat = i := by
    intro i h hget
    have hmap := congrArg (fun l : List ℕ => l[i]?) hheights
    rw [getElem?_map, hget,
      getElem?_range (hlength ▸ (List.getElem?_eq_some_iff.mp hget).1)] at hmap
    exact some.inj hmap
  have hpeer : HonestPeer (servingOne (peerChain c)) (peerChain c) :=
    ⟨hheight, peer_chain_linked c, fun _ first count hcount _ => ⟨1, one_pos, hcount, rfl⟩⟩
  obtain ⟨v, talk, hrun, -, -, hhonest⟩ := fork_point_exact deepUndo (extended c)
    (servingOne (peerChain c)) 6 128 (by decide : (6 : UInt64).toNat < 7)
  have hours : ∀ h, h ∈ [c.tip, (extension c).header] ∨ h ∈ peerChain c → h ∈ peerChain c := by
    rintro h (hh | hh)
    · exact (mem_append_left _ hh : h ∈ [c.tip, (extension c).header] ++ above 5 _)
    · exact hh
  have hv := hhonest _ _ 1 hindex hpeer
    (fun x hx y hy heq => inj_on_of_nodup_map hids (hours x hx) (hours y hy) heq) (by decide)
    (by rw [hlength]; decide) (fun heq => by cases heq) ⟨⟨by omega, rfl⟩, fun i hi => ?_⟩
  · have hfloor : (extended c).height.toNat - deepUndo.undoDepth.toNat ≤ 1 := by
      rw [hstory.heights.2.1]
      decide
    rw [if_pos hfloor] at hv
    exact ⟨c, hopen, by rw [search, hrun, hv], htalk⟩
  · by_contra hgt
    obtain ⟨hlt, heq⟩ := hi
    rw [getElem?_eq_getElem hlt, getElem?_eq_none (by simp; omega)] at heq
    cases heq

end

end Zycord.Sync
