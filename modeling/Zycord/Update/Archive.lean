import Mathlib.Data.List.Basic
import Zycord.Core.Crypto

/-!
# Unpacking a release

What an update takes out of a verified archive (`update/archive.go`, `update/check.go`): the members
whose base names are wanted go to a scratch directory, each into a file that must not exist yet. The
install asks for both binaries first and then, if the sibling is missing, for the running one alone,
in the same directory.
-/

namespace Zycord.Update

/-- How many members are read. -/
def maxMembers : ℕ := 256

/-- How large a member may be. -/
def maxMemberBytes : ℕ := 256 * 2 ^ 20

/-- How large all of them may be. -/
def maxTotalMembers : ℕ := 512 * 2 ^ 20

/-- A member of an archive: the base name of its path, its kind, the size it declares and what it
expands to. -/
structure Member where
  base : String
  regular : Bool
  declared : ℕ
  content : Bytes

/-- The formats of a release. -/
inductive Format where
  | zip
  | tarGz

/-- Why an archive is refused. -/
inductive ExtractError where
  | notAName
  | notAnArchive
  | tooManyMembers
  | twice
  | fileExists
  | tooLarge
  | memberMissing

/-- The files of a directory. -/
abbrev Dir := List (String × Bytes)

variable {wanted out : List String} {members before after : List Member} {m : Member}
variable {format : Format} {stem : String} {dir : Dir} {n total : ℕ}

/-- Write a member unless it is too large or there already. -/
def writeMember (dir : Dir) (m : Member) : Except ExtractError Unit × Dir :=
  if m.declared > maxMemberBytes then (.error .tooLarge, dir)
  else if m.base ∈ dir.map Prod.fst then (.error .fileExists, dir)
  else if m.content.length > maxMemberBytes then (.error .tooLarge, dir)
  else (.ok (), (m.base, m.content) :: dir)

/-- The loop over the members, behind `n` of them that expanded to `total` bytes. -/
def extractMembers (wanted : List String) :
    List Member → ℕ → ℕ → List String → Dir → Except ExtractError (List String) × Dir
  | [], _, _, out, dir => (.ok out, dir)
  | m :: rest, n, total, out, dir =>
    if n + 1 > maxMembers then (.error .tooManyMembers, dir)
    else if m.regular = false ∨ m.base ∉ wanted then
      extractMembers wanted rest (n + 1) total out dir
    else if m.base ∈ out then (.error .twice, dir)
    else
      match writeMember dir m with
      | (.error e, dir) => (.error e, dir)
      | (.ok (), written) =>
        if total + m.content.length > maxTotalMembers then (.error .tooLarge, dir)
        else
          extractMembers wanted rest (n + 1) (total + m.content.length) (m.base :: out) written

/-- Extract a tar archive. -/
def extractTarGz (wanted : List String) (members : List Member) (dir : Dir) :
    Except ExtractError (List String) × Dir :=
  extractMembers wanted members 0 0 [] dir

/-- The members of a zip are counted before the first one is read. -/
def extractZip (wanted : List String) (members : List Member) (dir : Dir) :
    Except ExtractError (List String) × Dir :=
  if members.length > maxMembers then (.error .tooManyMembers, dir)
  else extractMembers wanted members 0 0 [] dir

/-- A plain file name. -/
def isName (w : String) : Bool := w ≠ "" && w.toList.all fun c => c ≠ '/' && c ≠ '\\'

/-- Extract the wanted members of an archive. -/
def extract (format : Option Format) (members : List Member) (dir : Dir) (want : List String) :
    Except ExtractError (List String) × Dir :=
  if want.all isName = false then (.error .notAName, dir)
  else
    let (result, dir) := match format with
      | some .zip => extractZip want members dir
      | some .tarGz => extractTarGz want members dir
      | none => (.error .notAnArchive, dir)
    match result with
    | .error e => (.error e, dir)
    | .ok out => if ∀ w ∈ want, w ∈ out then (.ok out, dir) else (.error .memberMissing, dir)

/-- The other program of a release. -/
def otherBinary (stem : String) : Option String :=
  if stem = "zycordd" then some "zcd" else if stem = "zcd" then some "zycordd" else none

/-- The extraction of an install, with its second attempt. -/
def installExtract (format : Option Format) (members : List Member) (dir : Dir) (stem : String) :
    Except ExtractError (List String) × Dir :=
  match extract format members dir (stem :: (otherBinary stem).toList) with
  | (.error .memberMissing, dir) => extract format members dir [stem]
  | result => result

theorem extract_members_skip (hskip : ∀ m ∈ before, m.regular = false ∨ m.base ∉ wanted)
    (hn : n + before.length ≤ maxMembers) :
    extractMembers wanted (before ++ members) n total out dir =
      extractMembers wanted members (n + before.length) total out dir := by
  induction before generalizing n with
  | nil => rfl
  | cons m before ih =>
    obtain ⟨hm, hskip⟩ := List.forall_mem_cons.mp hskip
    rw [List.length_cons] at hn ⊢
    rw [List.cons_append, extractMembers, if_neg (by omega), if_pos hm, ih hskip (by omega),
      Nat.add_right_comm, Nat.add_assoc]

section

variable (hmembers : (before ++ m :: after).length ≤ maxMembers) (hregular : m.regular = true)
variable (hdeclared : m.declared ≤ maxMemberBytes) (hcontent : m.content.length ≤ maxMemberBytes)
include hmembers hregular hdeclared hcontent

/-- An archive with one wanted member gives that member, unless its file is there already. -/
theorem extract_one (format : Format) (dir : Dir) (hwanted : m.base ∈ wanted)
    (hname : wanted.all isName = true)
    (hothers : ∀ m' ∈ before ++ after, m'.regular = false ∨ m'.base ∉ wanted) :
    extract (some format) (before ++ m :: after) dir wanted =
      if m.base ∈ dir.map Prod.fst then (.error .fileExists, dir)
      else if ∀ w ∈ wanted, w = m.base then (.ok [m.base], (m.base, m.content) :: dir)
      else (.error .memberMissing, (m.base, m.content) :: dir) := by
  have hlen : before.length + (1 + after.length) ≤ maxMembers := by
    simpa [Nat.add_comm 1] using hmembers
  have htotal : ¬ 0 + m.content.length > maxTotalMembers := by
    simp only [maxTotalMembers, maxMemberBytes] at hcontent ⊢
    omega
  obtain ⟨hbefore, hafter⟩ := List.forall_mem_append.mp hothers
  have hloop : extractMembers wanted (before ++ m :: after) 0 0 [] dir =
      if m.base ∈ dir.map Prod.fst then (.error .fileExists, dir)
      else (.ok [m.base], (m.base, m.content) :: dir) := by
    rw [extract_members_skip hbefore (by omega), extractMembers, if_neg (by omega),
      if_neg (by simp [hregular, hwanted]), if_neg (by simp), writeMember, if_neg (by omega),
      if_neg (not_lt.mpr hcontent)]
    by_cases hexists : m.base ∈ dir.map Prod.fst
    · simp only [if_pos hexists]
    · simp only [if_neg hexists, if_neg htotal]
      rw [← List.append_nil after, extract_members_skip hafter (by omega)]
      rfl
  have hcount : ¬ (before ++ m :: after).length > maxMembers := not_lt.mpr hmembers
  cases format with
  | zip | tarGz =>
    simp only [extract, hname, extractZip, extractTarGz, if_neg hcount, hloop]
    by_cases hexists : m.base ∈ dir.map Prod.fst <;> simp [hexists]

variable (before after) in
/-- The running binary is extracted just when there is no sibling to ask for. -/
theorem install_extract_iff (hbase : m.base = stem)
    (hothers : ∀ m' ∈ before ++ after, m'.regular = true →
      m'.base ≠ stem ∧ m'.base ∉ otherBinary stem)
    (hfresh : stem ∉ dir.map Prod.fst) :
    installExtract (some format) (before ++ m :: after) dir stem =
        (.ok [stem], (stem, m.content) :: dir) ↔
      otherBinary stem = none ∧ isName stem = true := by
  subst hbase
  have hskip : ∀ want ⊆ m.base :: (otherBinary m.base).toList, ∀ m' ∈ before ++ after,
      m'.regular = false ∨ m'.base ∉ want := by
    intro want hwant m' hm'
    refine or_iff_not_imp_left.mpr fun hreg hmem => ?_
    have hno := hothers m' hm' (by simpa using hreg)
    rcases List.mem_cons.mp (hwant hmem) with heq | hother
    · exact hno.1 heq
    · exact hno.2 (Option.mem_toList.mp hother)
  have hextract := fun dir want hwant hname hsub => extract_one hmembers hregular hdeclared hcontent
    format dir hwant hname (hskip want hsub)
  unfold installExtract
  cases hother : otherBinary m.base with
  | none =>
    by_cases hname : isName m.base = true
    · rw [Option.toList_none, hextract dir [m.base] (by simp) (by simp [hname]) (by simp)]
      simp [hfresh, hname]
    · simp [extract, hname]
  | some other =>
    have hnames : isName m.base = true ∧ isName other = true ∧ other ≠ m.base := by
      unfold otherBinary at hother
      split_ifs at hother with hnode hcli <;> cases hother
      · exact hnode ▸ by decide
      · exact hcli ▸ by decide
    obtain ⟨hstem, hsibling, hne⟩ := hnames
    rw [Option.toList_some, hextract dir [m.base, other] (by simp) (by simp [hstem, hsibling])
      (by simp [hother]), if_neg hfresh, if_neg (by simpa using hne)]
    simp only
    rw [hextract _ [m.base] (by simp) (by simp [hstem]) (by simp)]
    simp

end

/-- A binary without a sibling is extracted from an archive that holds a readme as well. -/
theorem install_extract_single :
    installExtract (some .zip) [⟨"README", true, 1, [1]⟩, ⟨"zyminer", true, 2, [2, 3]⟩] []
      "zyminer" = (.ok ["zyminer"], [("zyminer", [2, 3])]) :=
  (install_extract_iff [_] [] (by decide) rfl (by decide) (by decide) rfl (by decide)
    (by decide)).mpr (by decide)

/-- The first attempt wrote the node's binary, and the second one meets that file. -/
theorem retry_meets_first_attempt :
    installExtract (some .tarGz) [⟨"zycordd", true, 2, [2, 3]⟩] [] "zycordd" =
      (.error .fileExists, [("zycordd", [2, 3])]) := by
  rfl

end Zycord.Update
