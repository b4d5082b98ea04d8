import Zycord.Core.Crypto

/-!
# Payload escaping

`escapePayload` and `unescapePayload` of package `node/storage`: before a payload is written to
the log a byte is stuffed in wherever the record magic would appear, so that a record can never be
found inside the payload of another. `unescape_escape` says that reading back gives the payload.
-/

namespace Zycord.Storage

open List Option

/-- The on-disk format of the log and the snapshot. -/
def formatVersion : UInt8 := 4

/-- What every record begins with. -/
def recordMagic : Bytes := [0x43, 0x41, 0x50, formatVersion]

/-- The byte stuffed in to break an occurrence of the magic. -/
def recordEscape : UInt8 := 0xFF

/-- Whether the output could begin a record. -/
def endsWithMagicPrefix (out : Bytes) : Bool := decide (recordMagic.take 3 <:+ out)

/-- Whether a byte must be stuffed in front of `c` after the output so far. -/
def stuffs (out : Bytes) (c : UInt8) : Bool :=
  (c == formatVersion || c == recordEscape) && endsWithMagicPrefix out

/-- Append the payload to the output, stuffing where it is needed. -/
def escapeLoop (out : Bytes) : Bytes → Bytes
  | [] => out
  | c :: rest =>
    if stuffs out c then escapeLoop (out ++ [recordEscape, c]) rest
    else escapeLoop (out ++ [c]) rest

/-- Escape a payload that needs it. -/
def escapePayload (payload : Bytes) : Bytes :=
  if recordMagic.take 3 <:+: payload then escapeLoop [] payload else payload

/-- Read the escaped bytes back; a stuffing byte must stand before a byte that needed one. -/
def unescapeLoop (out : Bytes) : Bytes → Option Bytes
  | [] => some out
  | c :: rest =>
    if c == recordEscape && endsWithMagicPrefix out then
      match rest with
      | [] => none
      | d :: rest =>
        if d == formatVersion || d == recordEscape then unescapeLoop (out ++ [d]) rest else none
    else unescapeLoop (out ++ [c]) rest

/-- The payload behind an escaped one, if `escapePayload` can have produced it. -/
def unescapePayload (payload : Bytes) : Option Bytes :=
  if recordMagic.take 3 <:+: payload then unescapeLoop [] payload else some payload

/-! ## How far the magic is matched

The escape reads its own output and the reverse direction reads what it has restored; the two
agree on how much of the magic stands at their ends. -/

/-- The first bytes of the magic stand at the end of both outputs or of neither, for every number
of bytes up to three. -/
def SameMatch (a b : Bytes) : Prop :=
  ∀ k ≤ 3, recordMagic.take k <:+ a ↔ recordMagic.take k <:+ b

variable {k : ℕ} {a b out : Bytes} {c : UInt8}

theorem suffix_concat_iff (hk : k < 4) (out : Bytes) (c : UInt8) :
    recordMagic.take (k + 1) <:+ out ++ [c] ↔
      recordMagic.take k <:+ out ∧ recordMagic[k]? = some c := by
  have hlt : k < recordMagic.length := hk
  rw [take_succ_eq_append_getElem hlt, getElem?_eq_getElem hlt]
  constructor
  · rintro ⟨front, h⟩
    rw [← append_assoc] at h
    obtain ⟨h1, h2⟩ := append_inj' h rfl
    exact ⟨⟨front, h1⟩, by simpa using h2⟩
  · rintro ⟨⟨front, rfl⟩, h⟩
    exact ⟨front, by rw [← append_assoc, some.inj h]⟩

theorem same_match_refl (out : Bytes) : SameMatch out out := fun _ _ => Iff.rfl

theorem SameMatch.concat (h : SameMatch a b) (c : UInt8) : SameMatch (a ++ [c]) (b ++ [c]) := by
  intro k hk
  cases k with
  | zero => simp
  | succ k => rw [suffix_concat_iff (by omega), suffix_concat_iff (by omega), h k (by omega)]

theorem not_suffix_concat (hc : c = formatVersion ∨ c = recordEscape) (hk : k < 3) (out : Bytes) :
    ¬ recordMagic.take (k + 1) <:+ out ++ [c] := by
  rw [suffix_concat_iff (by omega)]
  rintro ⟨-, h⟩
  have hmagic : ∀ k < 3, recordMagic[k]? ≠ some formatVersion ∧
      recordMagic[k]? ≠ some recordEscape := by decide
  rcases hc with rfl | rfl
  · exact (hmagic k hk).1 h
  · exact (hmagic k hk).2 h

theorem same_match_of_escaped (hc : c = formatVersion ∨ c = recordEscape) (a b : Bytes) :
    SameMatch (a ++ [c]) (b ++ [c]) := by
  intro k hk
  cases k with
  | zero => simp
  | succ k =>
    exact ⟨fun h => absurd h (not_suffix_concat hc hk a),
      fun h => absurd h (not_suffix_concat hc hk b)⟩

theorem SameMatch.ends_eq (h : SameMatch a b) : endsWithMagicPrefix a = endsWithMagicPrefix b :=
  decide_eq_decide.mpr (h 3 le_rfl)

theorem stuffs_eq_true :
    stuffs out c = true ↔
      (c = formatVersion ∨ c = recordEscape) ∧ endsWithMagicPrefix out = true := by
  simp [stuffs]

/-! ## The early returns

Without the first three bytes of the magic both loops copy, so the early returns of the source
change nothing. -/

theorem ends_eq_false {rest : Bytes} (h : ¬ recordMagic.take 3 <:+: out ++ rest) :
    endsWithMagicPrefix out = false := by
  rw [endsWithMagicPrefix, decide_eq_false_iff_not]
  intro hsuffix
  exact h (hsuffix.isInfix.trans (infix_append' [] out rest))

variable (payload : Bytes)

theorem escape_loop_eq_append (out : Bytes) (h : ¬ recordMagic.take 3 <:+: out ++ payload) :
    escapeLoop out payload = out ++ payload := by
  induction payload generalizing out with
  | nil => simp [escapeLoop]
  | cons c rest ih =>
    have hends := ends_eq_false h
    rw [escapeLoop, if_neg (by simp [stuffs, hends]), ih]
    · simp
    · simpa using h

theorem escape_payload_eq : escapePayload payload = escapeLoop [] payload := by
  unfold escapePayload
  split_ifs with h
  · rfl
  · rw [escape_loop_eq_append payload [] (by simpa using h), nil_append]

theorem unescape_loop_copy (rest : Bytes)
    (h : (c == recordEscape && endsWithMagicPrefix out) = false) :
    unescapeLoop out (c :: rest) = unescapeLoop (out ++ [c]) rest := by
  cases rest <;> simp [unescapeLoop, h]

theorem unescape_loop_eq_append (out : Bytes) (h : ¬ recordMagic.take 3 <:+: out ++ payload) :
    unescapeLoop out payload = some (out ++ payload) := by
  induction payload generalizing out with
  | nil => simp [unescapeLoop]
  | cons c rest ih =>
    have hends := ends_eq_false h
    rw [unescape_loop_copy rest (by simp [hends]), ih]
    · simp
    · simpa using h

theorem unescape_payload_eq : unescapePayload payload = unescapeLoop [] payload := by
  unfold unescapePayload
  split_ifs with h
  · rfl
  · rw [unescape_loop_eq_append payload [] (by simpa using h), nil_append]

/-! ## Reading back -/

/-- Unescaping undoes escaping. -/
theorem unescape_escape_loop {escaped restored : Bytes} (h : SameMatch escaped restored) :
    ∃ tail, escapeLoop escaped payload = escaped ++ tail ∧
      unescapeLoop restored tail = some (restored ++ payload) := by
  induction payload generalizing escaped restored with
  | nil => exact ⟨[], by simp [escapeLoop], by simp [unescapeLoop]⟩
  | cons c rest ih =>
    by_cases hs : stuffs escaped c = true
    · -- a byte is stuffed in, and dropped on the way back
      obtain ⟨hc, hends⟩ := stuffs_eq_true.mp hs
      have hmatch : SameMatch (escaped ++ [recordEscape, c]) (restored ++ [c]) := by
        simpa using same_match_of_escaped hc (escaped ++ [recordEscape]) restored
      obtain ⟨tail, htail, hread⟩ := ih hmatch
      refine ⟨recordEscape :: c :: tail, ?_, ?_⟩
      · rw [escapeLoop, if_pos hs, htail]
        simp
      · have hrestored : endsWithMagicPrefix restored = true := h.ends_eq ▸ hends
        have hcond : (c == formatVersion || c == recordEscape) = true := by simpa using hc
        simp only [unescapeLoop, hrestored, hcond, beq_self_eq_true, Bool.and_self, if_true, hread]
        simp
    · obtain ⟨tail, htail, hread⟩ := ih (h.concat c)
      refine ⟨c :: tail, ?_, ?_⟩
      · rw [escapeLoop, if_neg hs, htail]
        simp
      · have hcopy : (c == recordEscape && endsWithMagicPrefix restored) = false := by
          rw [← h.ends_eq]
          by_contra hne
          have htrue : c = recordEscape ∧ endsWithMagicPrefix escaped = true := by
            simpa using hne
          exact hs (stuffs_eq_true.mpr ⟨Or.inr htrue.1, htrue.2⟩)
        rw [unescape_loop_copy tail hcopy, hread]
        simp

/-- An escaped payload is read back. -/
theorem unescape_escape : unescapePayload (escapePayload payload) = some payload := by
  obtain ⟨tail, htail, hread⟩ :=
    unescape_escape_loop payload (same_match_refl [])
  rw [escape_payload_eq, unescape_payload_eq, htail, nil_append, hread, nil_append]

/-! ## The magic in the output -/

theorem magic_infix_concat : recordMagic <:+: out ++ [c] ↔
    (recordMagic.take 3 <:+ out ∧ c = formatVersion) ∨ recordMagic <:+: out := by
  have hend := suffix_concat_iff (k := 3) (by decide) out c
  rw [show recordMagic.take (3 + 1) = recordMagic from rfl,
    show recordMagic[3]? = some formatVersion from rfl, some.injEq, eq_comm] at hend
  rw [infix_concat_iff, hend]

/-- Escaped bytes never contain the magic. -/
theorem magic_not_infix_escape_loop (hout : ¬ recordMagic <:+: out) :
    ¬ recordMagic <:+: escapeLoop out payload := by
  fun_induction escapeLoop out payload with
  | case1 => exact hout
  | case2 out c rest hs ih =>
    refine ih ?_
    rw [show out ++ [recordEscape, c] = out ++ [recordEscape] ++ [c] by simp, magic_infix_concat,
      magic_infix_concat]
    rintro (⟨hends, -⟩ | ⟨-, hc⟩ | hinfix)
    · exact not_suffix_concat (Or.inr rfl) (by decide) out hends
    · exact absurd hc (by decide)
    · exact hout hinfix
  | case3 out c rest hs ih =>
    refine ih ?_
    rw [magic_infix_concat]
    rintro (⟨hends, hc⟩ | hinfix)
    · exact hs (stuffs_eq_true.mpr ⟨Or.inl hc, decide_eq_true hends⟩)
    · exact hout hinfix

/-- Every stuffed byte is paid for by the three bytes of the magic before it and the byte behind it;
the bytes of the magic that stand at the end are not spent yet. -/
theorem length_escape_loop {n : ℕ}
    (hout : ∀ k ≤ 3, recordMagic.take k <:+ out → 4 * out.length + k ≤ 5 * n) :
    4 * (escapeLoop out payload).length ≤ 5 * (n + payload.length) := by
  fun_induction escapeLoop out payload generalizing n with
  | case1 => simpa using hout 0 (by decide) (by simp)
  | case2 out c rest hs ih =>
    obtain ⟨hc, hends⟩ := stuffs_eq_true.mp hs
    have hpaid := hout 3 le_rfl (of_decide_eq_true hends)
    have hlen := ih (n := n + 1) fun k hk hsuffix => ?_
    · rw [length_cons]
      omega
    · cases k with
      | zero => simp; omega
      | succ k =>
        rw [show out ++ [recordEscape, c] = out ++ [recordEscape] ++ [c] by simp] at hsuffix
        exact absurd hsuffix (not_suffix_concat hc hk _)
  | case3 out c rest hs ih =>
    have hlen := ih (n := n + 1) fun k hk hsuffix => ?_
    · rw [length_cons]
      omega
    · have hzero := hout 0 (by decide) (by simp)
      cases k with
      | zero => simp; omega
      | succ k =>
        have := hout k (by omega) ((suffix_concat_iff (by omega) out c).mp hsuffix).1
        simp
        omega

theorem length_escape_payload_le :
    (escapePayload payload).length ≤ payload.length + payload.length / 4 := by
  have hlen : 4 * (escapeLoop [] payload).length ≤ 5 * (0 + payload.length) :=
    length_escape_loop payload fun k hk h => by simpa [recordMagic] using h
  rw [← escape_payload_eq] at hlen
  omega

/-- An escaped payload is read back, holds no record magic, and is longer by a quarter at most. -/
theorem escape_payload_sound (payload : Bytes) :
    unescapePayload (escapePayload payload) = some payload ∧
      ¬ recordMagic <:+: escapePayload payload ∧
      (escapePayload payload).length ≤ payload.length + payload.length / 4 := by
  refine ⟨unescape_escape payload, ?_, length_escape_payload_le payload⟩
  rw [escape_payload_eq]
  exact magic_not_infix_escape_loop payload (by decide)

/-- Bytes free of the magic that unescape are an escaping. -/
theorem escape_unescape_loop {tail escaped restored plain : Bytes}
    (h : SameMatch escaped restored) (hread : unescapeLoop restored tail = some plain)
    (hmagic : ¬ recordMagic <:+: escaped ++ tail) :
    ∃ payload, plain = restored ++ payload ∧ escapeLoop escaped payload = escaped ++ tail := by
  fun_induction unescapeLoop restored tail generalizing escaped with
  | case1 restored => exact ⟨[], by simpa using hread.symm, by simp [escapeLoop]⟩
  | case2 | case4 => cases hread
  | case3 restored c hc d rest hd ih =>
    obtain ⟨rfl, hends⟩ : c = recordEscape ∧ _ := by simpa using hc
    have hd : d = formatVersion ∨ d = recordEscape := by simpa using hd
    have hmatch : SameMatch (escaped ++ [recordEscape, d]) (restored ++ [d]) := by
      simpa using same_match_of_escaped hd (escaped ++ [recordEscape]) restored
    obtain ⟨payload, rfl, hescape⟩ := ih hmatch hread (by simpa using hmagic)
    refine ⟨d :: payload, by simp, ?_⟩
    rw [escapeLoop, if_pos (stuffs_eq_true.mpr ⟨hd, h.ends_eq.trans hends⟩), hescape]
    simp
  | case5 restored c rest hc ih =>
    obtain ⟨payload, rfl, hescape⟩ := ih (h.concat c) hread (by simpa using hmagic)
    refine ⟨c :: payload, by simp, ?_⟩
    rw [escapeLoop, if_neg, hescape]
    · simp
    · -- a version byte copied behind the prefix would have made a magic
      intro hs
      obtain ⟨rfl | rfl, hends⟩ := stuffs_eq_true.mp hs
      · refine hmagic ((magic_infix_concat.mpr (Or.inl ⟨of_decide_eq_true hends, rfl⟩)).trans ?_)
        exact infix_append' [] (escaped ++ [formatVersion]) rest |>.trans (by simp)
      · exact hc (by simpa using h.ends_eq ▸ hends)

/-- What is read back escapes to the string it was read from just when the string holds no magic. -/
theorem escape_unescape_iff {escaped payload : Bytes}
    (hread : unescapePayload escaped = some payload) :
    escapePayload payload = escaped ↔ ¬ recordMagic <:+: escaped := by
  rw [escape_payload_eq]
  constructor
  · rintro rfl
    exact magic_not_infix_escape_loop payload (by decide)
  · intro hmagic
    rw [unescape_payload_eq] at hread
    obtain ⟨plain, rfl, hescape⟩ := escape_unescape_loop (same_match_refl []) hread hmagic
    exact hescape

theorem escape_unescape_stuffed :
    escapePayload recordMagic = [0x43, 0x41, 0x50, 0xFF, formatVersion] :=
  (escape_unescape_iff (by decide)).mpr (by decide)

theorem raw_magic_accepted : unescapePayload recordMagic = some recordMagic ∧
    escapePayload recordMagic ≠ recordMagic := by
  decide

end Zycord.Storage
