import HkSystem.Pool.Model.Builder
import Mathlib.Data.List.Pairwise
/-!
# The pool is not diverse

Nothing the builder passes to a tool differs from one attempt to the next: the
mutation starts from the base again, and the number of the variant is in the
names of the files only. So an attempt that was refused is refused for ever, and
where the first one is verified, the pool is one binary as many times as variants
were asked for.
-/

namespace HkSystem

namespace Pool

variable {tools : Tools} {files : Files} {base mutated object binary : Bytes} {v : Variables}
variable {n m count turns : ℕ}

/-! ## Files -/

/-- The files of the artifacts. -/
inductive Artifact where
  | baseIr
  | mutatedIr (n : ℕ)
  | objFile (n : ℕ)
  | binFile (n : ℕ)

def Artifact.path : Artifact → String
  | .baseIr => Pool.baseIr
  | .mutatedIr n => Pool.mutatedIr n
  | .objFile n => Pool.objFile n
  | .binFile n => Pool.binFile n

theorem inArtifacts_injective : Function.Injective inArtifacts := by
  intro name name' h
  have hchars := congrArg String.toList h
  simp only [inArtifacts, String.toList_append] at hchars
  exact String.toList_injective (List.append_cancel_left hchars)

/-- A number in a name can be read back. -/
theorem eq_of_numbered {front back : String} (h : front ++ toString n ++ back =
    front ++ toString m ++ back) : n = m := by
  have hchars := congrArg String.toList h
  simp only [String.toList_append] at hchars
  have hdigits : Nat.toDigits 10 n = Nat.toDigits 10 m := by
    simpa [Nat.toString_eq_ofList_toDigits] using
      List.append_cancel_left (List.append_cancel_right hchars)
  calc n = Nat.ofDigitChars 10 (Nat.toDigits 10 n) 0 :=
        (Nat.ofDigitChars_toDigits (by decide) (by decide)).symm
    _ = Nat.ofDigitChars 10 (Nat.toDigits 10 m) 0 := by rw [hdigits]
    _ = m := Nat.ofDigitChars_toDigits (by decide) (by decide)

/-- **No artifact is written over another.** -/
theorem Artifact.path_injective : Function.Injective Artifact.path := by
  intro a b h
  have hchars := congrArg String.toList h
  have hback := congrArg (fun path => path.toList.reverse) h
  cases a <;> cases b
  case baseIr.baseIr => rfl
  case mutatedIr.mutatedIr n m => rw [eq_of_numbered (inArtifacts_injective h)]
  case objFile.objFile n m => rw [eq_of_numbered (inArtifacts_injective h)]
  case binFile.binFile n m => rw [eq_of_numbered (inArtifacts_injective h)]
  -- the others differ where their names start or in their extensions
  all_goals
    simp [Artifact.path, Pool.baseIr, Pool.mutatedIr, Pool.objFile, Pool.binFile, inArtifacts,
      artifactsDir, moduleName, String.toList_append] at hchars hback

/-- A file that another is written beside. -/
theorem update_path {a b : Artifact} (h : a ≠ b) (contents : Option Bytes) :
    Function.update files a.path contents b.path = files b.path :=
  Function.update_of_ne (fun heq => h (Artifact.path_injective heq.symm)) contents files

theorem runCommand_eq {tool : Bytes → Option Bytes} {input output : String} {contents result : Bytes}
    (hinput : files input = some contents) (htool : tool contents = some result) :
    runCommand tool input output files = some (Function.update files output (some result)) := by
  simp [runCommand, hinput, htool]

/-! ## An attempt -/

/-- **The compile commands succeed**, on the files the builder gives them: `base`
comes of the source, `mutated` of `base`, and `binary` of `mutated`. -/
structure Compiles (tools : Tools) (files : Files) (base mutated binary : Bytes) : Prop where
  clang : ∃ source, files sourceFile = some source ∧ tools.clang source = some base
  opt : tools.opt base = some mutated
  binary : ∃ object, tools.llc mutated = some object ∧ tools.objcopy object = some binary

/-- The variables between two attempts: every entry of the manifest is for the
one binary. -/
structure Pooled (base mutated binary : Bytes) (v : Variables) : Prop where
  base : v.files baseIr = some base
  length : v.manifest.variants.length = v.validCount
  entry : ∀ e ∈ v.manifest.variants, ∃ n, e = Variant.ofData n binary ∧
    v.files (mutatedIr n) = some mutated ∧ v.files (binFile n) = some binary

/-- What every attempt starts with: the mutation, from the base again. -/
theorem attempt_opt (hopt : tools.opt base = some mutated) (hbase : v.files baseIr = some base) :
    runCommand tools.opt baseIr (mutatedIr v.validCount) v.files =
        some (Function.update v.files (mutatedIr v.validCount) (some mutated)) ∧
      Function.update v.files (mutatedIr v.validCount) (some mutated) baseIr = some base ∧
      aliveRes tools v.validCount
          (Function.update v.files (mutatedIr v.validCount) (some mutated)) =
        tools.aliveTv base mutated := by
  have hkept : Function.update v.files (mutatedIr v.validCount) (some mutated) baseIr = some base :=
    (@update_path _ (.mutatedIr v.validCount) .baseIr (by simp) _).trans hbase
  refine ⟨runCommand_eq hbase hopt, hkept, ?_⟩
  simp only [aliveRes, hkept, Function.update_self]

/-- The files after a verified attempt. -/
def written (n : ℕ) (mutated object binary : Bytes) (files : Files) : Files :=
  Function.update (Function.update (Function.update files (mutatedIr n) (some mutated))
    (objFile n) (some object)) (binFile n) (some binary)

/-- They are as before but for the three that were written. -/
theorem written_path {a : Artifact} (hmutated : a ≠ .mutatedIr n) (hobj : a ≠ .objFile n)
    (hbin : a ≠ .binFile n) : written n mutated object binary files a.path = files a.path :=
  calc written n mutated object binary files a.path
      = Function.update (Function.update files (mutatedIr n) (some mutated)) (objFile n)
          (some object) a.path := update_path hbin.symm _
    _ = Function.update files (mutatedIr n) (some mutated) a.path := update_path hobj.symm _
    _ = files a.path := update_path hmutated.symm _

theorem written_mutatedIr (h : files (mutatedIr m) = some mutated ∨ m = n) :
    written n mutated object binary files (mutatedIr m) = some mutated := by
  by_cases heq : m = n
  · subst heq
    calc written m mutated object binary files (mutatedIr m)
        = Function.update (Function.update files (mutatedIr m) (some mutated)) (objFile m)
            (some object) (mutatedIr m) := @update_path _ (.binFile m) (.mutatedIr m) (by simp) _
      _ = Function.update files (mutatedIr m) (some mutated) (mutatedIr m) :=
          @update_path _ (.objFile m) (.mutatedIr m) (by simp) _
      _ = some mutated := Function.update_self ..
  · have hkept : written n mutated object binary files (mutatedIr m) = files (mutatedIr m) :=
      @written_path _ _ _ _ _ (.mutatedIr m) (by simpa using heq) (by simp) (by simp)
    exact hkept.trans (h.resolve_right heq)

theorem written_binFile (h : files (binFile m) = some binary ∨ m = n) :
    written n mutated object binary files (binFile m) = some binary := by
  by_cases heq : m = n
  · subst heq
    exact Function.update_self ..
  · have hkept : written n mutated object binary files (binFile m) = files (binFile m) :=
      @written_path _ _ _ _ _ (.binFile m) (by simp) (by simp) (by simpa using heq)
    exact hkept.trans (h.resolve_right heq)

/-- One more entry for the one binary, and files that keep what the others have. -/
theorem Pooled.add (hv : Pooled base mutated binary v) (hbase : files baseIr = some base)
    (hmutated : ∀ n, v.files (mutatedIr n) = some mutated ∨ n = v.validCount →
      files (mutatedIr n) = some mutated)
    (hbinary : ∀ n, v.files (binFile n) = some binary ∨ n = v.validCount →
      files (binFile n) = some binary) :
    Pooled base mutated binary {
      files := files
      manifest := { v.manifest with
        variants := v.manifest.variants ++ [Variant.ofData v.validCount binary] }
      validCount := v.validCount + 1
      attempts := v.attempts + 1 } := by
  refine ⟨hbase, ?_, fun e he => ?_⟩
  · rw [List.length_append, hv.length, List.length_singleton]
  · rcases List.mem_append.1 he with he | he
    · obtain ⟨n, heq, hm, hb⟩ := hv.entry e he
      exact ⟨n, heq, hmutated n (Or.inl hm), hbinary n (Or.inl hb)⟩
    · exact ⟨v.validCount, List.mem_singleton.1 he, hmutated _ (Or.inr rfl), hbinary _ (Or.inr rfl)⟩

/-- **An attempt that is verified** adds the one binary. -/
theorem attempt_verified (h : Compiles tools files base mutated binary)
    (hok : seemsCorrect (tools.aliveTv base mutated) = true) (hv : Pooled base mutated binary v) :
    ∃ v', attempt tools v = some v' ∧ Pooled base mutated binary v' ∧
      v'.validCount = v.validCount + 1 := by
  obtain ⟨object, hllc, hobjcopy⟩ := h.binary
  obtain ⟨hopt, -, halive⟩ := attempt_opt h.opt hv.base
  have hobj := @runCommand_eq (Function.update v.files (mutatedIr v.validCount) (some mutated))
    tools.llc (mutatedIr v.validCount) (objFile v.validCount) mutated object
    (Function.update_self ..) hllc
  have hbin : runCommand tools.objcopy (objFile v.validCount) (binFile v.validCount)
      (Function.update (Function.update v.files (mutatedIr v.validCount) (some mutated))
        (objFile v.validCount) (some object)) =
      some (written v.validCount mutated object binary v.files) :=
    runCommand_eq (Function.update_self ..) hobjcopy
  have hdata : written v.validCount mutated object binary v.files (binFile v.validCount) =
      some binary := written_binFile (Or.inr rfl)
  have hkept : written v.validCount mutated object binary v.files baseIr = v.files baseIr :=
    @written_path _ _ _ _ _ .baseIr (by simp) (by simp) (by simp)
  refine ⟨_, ?_, hv.add (hkept.trans hv.base) (fun n => written_mutatedIr)
    (fun n => written_binFile), rfl⟩
  simp only [attempt, hopt, Option.bind_eq_bind, Option.bind_some, halive, hok, if_true, hobj,
    hbin, hdata]

/-- **An attempt that is refused** leaves everything to the next. -/
theorem attempt_refused (hopt : tools.opt base = some mutated)
    (hno : seemsCorrect (tools.aliveTv base mutated) = false) (hbase : v.files baseIr = some base) :
    ∃ v', attempt tools v = some v' ∧ v'.files baseIr = some base ∧
      v'.validCount = v.validCount := by
  obtain ⟨hrun, hkept, halive⟩ := attempt_opt hopt hbase
  refine ⟨{ v with
    files := Function.update v.files (mutatedIr v.validCount) (some mutated)
    attempts := v.attempts + 1 }, ?_, hkept, rfl⟩
  simp [attempt, hrun, halive, hno]

/-! ## The pool -/

/-- **What the pool is for**: so many variants, each verified against the base, and
no two binaries the same. -/
structure Diverse (tools : Tools) (count : ℕ) (v : Variables) : Prop where
  length : v.manifest.variants.length = count
  verified : ∀ e ∈ v.manifest.variants, seemsCorrect (aliveRes tools e.id v.files) = true
  different : v.manifest.variants.Pairwise fun e e' => v.files e.path ≠ v.files e'.path

/-- The base is compiled, and the loop entered. -/
theorem generateVariants_eq (h : Compiles tools files base mutated binary) :
    ∃ files', files' baseIr = some base ∧ ∀ count turns, generateVariants tools count turns files =
      While.loop (fun v => decide (v.validCount < count)) (attempt tools) turns (enter files') := by
  obtain ⟨source, hsource, hclang⟩ := h.clang
  refine ⟨Function.update files baseIr (some base), Function.update_self .., fun count turns => ?_⟩
  rw [generateVariants, generateVariantsWith, runCommand_eq hsource hclang]

theorem pooled_enter {files' : Files} (h : files' baseIr = some base) :
    Pooled base mutated binary (enter files') :=
  ⟨h, rfl, fun _ he => absurd he (by simp [enter])⟩

section Verified

variable (h : Compiles tools files base mutated binary)
variable (hok : seemsCorrect (tools.aliveTv base mutated) = true)

include h hok

/-- Where the mutation is verified, whatever is returned is one binary. -/
theorem pooled_of_returned {result : Variables}
    (hreturned : generateVariants tools count turns files = .returned result) :
    Pooled base mutated binary result ∧ result.validCount = count := by
  obtain ⟨files', hbase, heq⟩ := generateVariants_eq h
  rw [heq] at hreturned
  obtain ⟨⟨hpooled, hle⟩, hcond⟩ := While.loop_inv
    (fun v => Pooled base mutated binary v ∧ v.validCount ≤ count)
    (fun v v' hv hcond hbody => by
      obtain ⟨v₁, hv₁, hpooled, hcount⟩ := attempt_verified h hok hv.1
      rw [hv₁] at hbody
      obtain rfl := Option.some.inj hbody
      have hlt := of_decide_eq_true hcond
      exact ⟨hpooled, by omega⟩)
    ⟨pooled_enter hbase, Nat.zero_le count⟩ hreturned
  have hge := of_decide_eq_false hcond
  exact ⟨hpooled, by omega⟩

/-- And it is returned. -/
theorem returned_of_le (hturns : count ≤ turns) :
    ∃ result, generateVariants tools count turns files = .returned result := by
  obtain ⟨files', hbase, heq⟩ := generateVariants_eq h
  rw [heq]
  refine While.loop_returns (Pooled base mutated binary)
    (fun v => count - v.validCount) (fun v hv hcond => ?_) (pooled_enter hbase) ?_
  · obtain ⟨v', hv', hpooled, hcount⟩ := attempt_verified h hok hv
    have hlt := of_decide_eq_true hcond
    exact ⟨v', hv', hpooled, by omega⟩
  · exact le_trans (Nat.sub_le count _) hturns

end Verified

/-- **Where the mutation is refused, the loop does not end.** -/
theorem running_of_refused (h : Compiles tools files base mutated binary)
    (hno : seemsCorrect (tools.aliveTv base mutated) = false) (hcount : 0 < count) :
    generateVariants tools count turns files = .running := by
  obtain ⟨files', hbase, heq⟩ := generateVariants_eq h
  rw [heq]
  refine While.loop_running (fun v => v.files baseIr = some base ∧ v.validCount = 0)
    (fun v hv => ?_) ⟨hbase, rfl⟩
  obtain ⟨v', hv', hkept, hsame⟩ := attempt_refused h.opt hno hv.1
  exact ⟨decide_eq_true (by omega), v', hv', hkept, by omega⟩

/-- One binary twice is no diversity. -/
theorem Pooled.not_diverse (hv : Pooled base mutated binary v) (hcount : 2 ≤ count) :
    ¬ Diverse tools count v := by
  intro hdiverse
  have hlength := hdiverse.length
  rcases hvariants : v.manifest.variants with _ | ⟨e, _ | ⟨e', rest⟩⟩
  · simp [hvariants] at hlength
    omega
  · simp [hvariants] at hlength
    omega
  · have hdiff := hdiverse.different
    rw [hvariants] at hdiff
    obtain ⟨n, rfl, -, hbin⟩ := hv.entry e (by simp [hvariants])
    obtain ⟨n', rfl, -, hbin'⟩ := hv.entry e' (by simp [hvariants])
    exact List.rel_of_pairwise_cons hdiff (List.mem_cons_self ..) (hbin.trans hbin'.symm)

/-- **The pool is never diverse.** Whatever the base, the tools and the number of
variants, from two on: where the mutation is verified the builder returns as
many entries as were asked for, all of them verified, and all with the same
binary and the same hash; where it is not, the builder never returns. -/
theorem pool_not_diverse (h : Compiles tools files base mutated binary) (hcount : 2 ≤ count) :
    (¬ ∃ turns result, generateVariants tools count turns files = .returned result ∧
      Diverse tools count result) ∧
    (seemsCorrect (tools.aliveTv base mutated) = true → ∀ turns, count ≤ turns →
      ∃ result, generateVariants tools count turns files = .returned result ∧
        result.manifest.variants.length = count ∧
        ∀ e ∈ result.manifest.variants, result.files e.path = some binary ∧
          e.hash = hexdigest (Fips180.sha256 binary) ∧
          seemsCorrect (aliveRes tools e.id result.files) = true) ∧
    (seemsCorrect (tools.aliveTv base mutated) = false → ∀ turns,
      generateVariants tools count turns files = .running) := by
  refine ⟨?_, fun hok turns hturns => ?_, fun hno turns => running_of_refused h hno (by omega)⟩
  · rintro ⟨turns, result, hreturned, hdiverse⟩
    cases hverdict : seemsCorrect (tools.aliveTv base mutated) with
    | true => exact (pooled_of_returned h hverdict hreturned).1.not_diverse hcount hdiverse
    | false =>
      rw [running_of_refused h hverdict (by omega)] at hreturned
      cases hreturned
  · obtain ⟨result, hreturned⟩ := returned_of_le h hok hturns
    obtain ⟨hpooled, hvalid⟩ := pooled_of_returned h hok hreturned
    refine ⟨result, hreturned, hpooled.length.trans hvalid, fun e he => ?_⟩
    obtain ⟨n, rfl, hmutated, hbinary⟩ := hpooled.entry e he
    have halive : aliveRes tools n result.files = tools.aliveTv base mutated := by
      simp only [aliveRes, hpooled.base, hmutated]
    exact ⟨hbinary, rfl, by rw [show (Variant.ofData n binary).id = n from rfl, halive, hok]⟩

/-! ## A worker the pass leaves alone -/

/-- `int work(void) { return 0; }`, as `clang` and `opt` write it. The function has
no attribute, so the pass does not touch it. -/
def workIr : Bytes := "define i32 @work() \x7b\n  ret i32 0\n\x7d\n".toUTF8.toList

/-- `xor eax, eax; ret`. -/
def workText : Bytes := [0x31, 0xC0, 0xC3]

/-- The tools, as they behave on it. -/
def workTools : Tools where
  clang _ := some workIr
  opt := some
  aliveTv _ _ := "Transformation seems to be correct!\n\nSummary:\n  1 correct transformations\n"
  llc _ := some (0x7F :: 0x45 :: 0x4C :: 0x46 :: workText)
  objcopy object := some (object.drop 4)

/-- The source, and nothing else. -/
def workFiles (path : String) : Option Bytes :=
  if path = sourceFile then some "int work(void) \x7b return 0; \x7d\n".toUTF8.toList else none

theorem compiles_work : Compiles workTools workFiles workIr workIr workText :=
  ⟨⟨_, if_pos rfl, rfl⟩, rfl, _, rfl, rfl⟩

theorem seemsCorrect_work : seemsCorrect (workTools.aliveTv workIr workIr) = true := by decide

/-- Two variants of it: both entries are there, and they are the same three bytes. -/
theorem pool_not_diverse_work :
    (∃ result, generateVariants workTools 2 2 workFiles = .returned result ∧
      result.manifest.variants.length = 2 ∧
      ∀ e ∈ result.manifest.variants, result.files e.path = some workText) ∧
    ¬ ∃ turns result, generateVariants workTools 2 turns workFiles = .returned result ∧
      Diverse workTools 2 result := by
  obtain ⟨hnot, hsame, -⟩ := pool_not_diverse compiles_work (le_refl 2)
  obtain ⟨result, hreturned, hlength, hentry⟩ := hsame seemsCorrect_work 2 (le_refl 2)
  exact ⟨⟨result, hreturned, hlength, fun e he => (hentry e he).1⟩, hnot⟩

/-- With the number the script has, the pool is one binary five times. -/
theorem not_diverse_work :
    ¬ ∃ turns result,
      generateVariants workTools variantsCount turns workFiles = .returned result ∧
        Diverse workTools variantsCount result := by
  rintro ⟨turns, result, hreturned, hdiverse⟩
  have hpooled := (pooled_of_returned compiles_work seemsCorrect_work hreturned).1
  exact hpooled.not_diverse (by decide) hdiverse

end Pool

end HkSystem
