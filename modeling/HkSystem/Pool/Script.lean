import HkSystem.Pool.Header
/-!
# What the script bakes

The script from end to end, with tools that may answer every attempt in another way.
Whatever they do, an entry of the manifest is made of a file that `alive-tv` has
passed, and no attempt touches the files of another entry (`Sound.attempt`). So when
the script is through, the header holds as many variants as were asked for, each
with its number, its length, the hash of its bytes, and bytes that come of a
verified mutation of the base (`pool_sound`).
-/

namespace HkSystem

namespace Pool

variable {tools : ℕ → Tools} {base : Bytes} {v v' : Variables}

/-! ## An attempt -/

theorem runCommand_eq_some {tool : Bytes → Option Bytes} {input output : String}
    {files files' : Files} (h : runCommand tool input output files = some files') :
    ∃ contents result, files input = some contents ∧ tool contents = some result ∧
      files' = Function.update files output (some result) := by
  obtain ⟨contents, hcontents, h⟩ := Option.bind_eq_some_iff.1 h
  obtain ⟨result, hresult, h⟩ := Option.bind_eq_some_iff.1 h
  exact ⟨contents, result, hcontents, hresult, (Option.some.inj h).symm⟩

/-- **The two ways an attempt ends**, if no command fails: with one more entry for what
was verified, or with the mutated file only. -/
theorem attempt_cases {tools : Tools} (hbase : v.files baseIr = some base)
    (h : attempt tools v = some v') :
    ∃ mutated, tools.opt base = some mutated ∧
      ((seemsCorrect (tools.aliveTv base mutated) = true ∧
          ∃ object data, tools.llc mutated = some object ∧ tools.objcopy object = some data ∧
            v' = {
              files := written v.validCount mutated object data v.files
              manifest := { v.manifest with
                variants := v.manifest.variants ++ [Variant.ofData v.validCount data] }
              validCount := v.validCount + 1
              attempts := v.attempts + 1 }) ∨
        v' = { v with
          files := Function.update v.files (mutatedIr v.validCount) (some mutated)
          attempts := v.attempts + 1 }) := by
  obtain ⟨files, hopt, h⟩ := Option.bind_eq_some_iff.1 h
  obtain ⟨contents, mutated, hcontents, hmutated, rfl⟩ := runCommand_eq_some hopt
  obtain rfl := Option.some.inj (hbase.symm.trans hcontents)
  obtain ⟨-, -, halive⟩ := attempt_opt hmutated hbase
  refine ⟨mutated, hmutated, ?_⟩
  rw [halive] at h
  split at h
  next hok =>
    obtain ⟨files, hllc, h⟩ := Option.bind_eq_some_iff.1 h
    obtain ⟨_, object, hfile, hobject, rfl⟩ := runCommand_eq_some hllc
    rw [Function.update_self] at hfile
    obtain rfl := Option.some.inj hfile
    obtain ⟨files, hcopy, h⟩ := Option.bind_eq_some_iff.1 h
    obtain ⟨_, data, hfile, hdata, rfl⟩ := runCommand_eq_some hcopy
    rw [Function.update_self] at hfile
    obtain rfl := Option.some.inj hfile
    obtain ⟨_, hfile, h⟩ := Option.bind_eq_some_iff.1 h
    rw [Function.update_self] at hfile
    obtain rfl := Option.some.inj hfile
    exact .inl ⟨hok, object, data, hobject, hdata, (Option.some.inj h).symm⟩
  · exact .inr (Option.some.inj h).symm

/-! ## The manifest -/

/-- The bytes were made from a mutation of the base that `alive-tv` passed, in one of
the attempts. -/
def Verified (tools : ℕ → Tools) (base data : Bytes) : Prop :=
  ∃ k mutated object, (tools k).opt base = some mutated ∧
    seemsCorrect ((tools k).aliveTv base mutated) = true ∧ (tools k).llc mutated = some object ∧
    (tools k).objcopy object = some data

/-- The variables between two attempts. -/
structure Sound (tools : ℕ → Tools) (base : Bytes) (v : Variables) : Prop where
  baseFile : v.files baseIr = some base
  length : v.manifest.variants.length = v.validCount
  /-- The `i`-th entry is of file `i`, which is still there. -/
  entry : ∀ i var, v.manifest.variants[i]? = some var → ∃ data, var = Variant.ofData i data ∧
    v.files (binFile i) = some data ∧ Verified tools base data

/-- **An attempt keeps the manifest sound.** -/
theorem Sound.attempt (h : Sound tools base v) (hattempt : attempt (tools v.attempts) v = some v') :
    Sound tools base v' := by
  obtain ⟨mutated, hopt, ⟨hok, object, data, hllc, hcopy, rfl⟩ | rfl⟩ :=
    attempt_cases h.baseFile hattempt
  · refine ⟨?_, ?_, fun i var hget => ?_⟩
    · have hkept : written v.validCount mutated object data v.files baseIr = v.files baseIr :=
        @written_path _ _ _ _ _ .baseIr (by simp) (by simp) (by simp)
      exact hkept.trans h.baseFile
    · rw [List.length_append, h.length, List.length_singleton]
    · rcases Nat.lt_or_ge i v.validCount with hi | hi
      · rw [List.getElem?_append_left (by rw [h.length]; exact hi)] at hget
        obtain ⟨old, hvar, hfile, hverified⟩ := h.entry i var hget
        -- an earlier file has another name
        have hkept : written v.validCount mutated object data v.files (binFile i) =
            v.files (binFile i) :=
          @written_path _ _ _ _ _ (.binFile i) (by simp) (by simp)
            (by simpa using Nat.ne_of_lt hi)
        exact ⟨old, hvar, hkept.trans hfile, hverified⟩
      · rw [List.getElem?_append_right (by rw [h.length]; exact hi), h.length,
          List.getElem?_singleton] at hget
        split at hget
        next hzero =>
          obtain rfl : i = v.validCount := by omega
          exact ⟨data, (Option.some.inj hget).symm, written_binFile (.inr rfl),
            v.attempts, mutated, object, hopt, hok, hllc, hcopy⟩
        · cases hget
  · refine ⟨?_, h.length, fun i var hget => ?_⟩
    · have hkept : Function.update v.files (mutatedIr v.validCount) (some mutated) baseIr =
          v.files baseIr := @update_path _ (.mutatedIr v.validCount) .baseIr (by simp) _
      exact hkept.trans h.baseFile
    · obtain ⟨data, hvar, hfile, hverified⟩ := h.entry i var hget
      have hkept : Function.update v.files (mutatedIr v.validCount) (some mutated) (binFile i) =
          v.files (binFile i) :=
        @update_path _ (.mutatedIr v.validCount) (.binFile i) (by simp) _
      exact ⟨data, hvar, hkept.trans hfile, hverified⟩

/-- **What `generate_variants` returns.** -/
theorem sound_of_returned {count turns : ℕ} {files : Files} {result : Variables}
    (h : generateVariantsWith tools count turns files = .returned result) :
    ∃ source base, files sourceFile = some source ∧ (tools 0).clang source = some base ∧
      Sound tools base result ∧ result.validCount = count := by
  rw [generateVariantsWith] at h
  rcases hclang : runCommand (tools 0).clang sourceFile baseIr files with _ | files'
  · rw [hclang] at h
    cases h
  rw [hclang] at h
  obtain ⟨source, base, hsource, hbase, rfl⟩ := runCommand_eq_some hclang
  have henter : Sound tools base (enter (Function.update files baseIr (some base))) := by
    refine ⟨?_, rfl, fun i var hget => by simp [enter] at hget⟩
    exact Function.update_self baseIr (some base) files
  obtain ⟨⟨hsound, hle⟩, hcond⟩ := While.loop_inv
    (fun v => Sound tools base v ∧ v.validCount ≤ count)
    (fun v v' hv hcond hbody => by
      have hlt := of_decide_eq_true hcond
      refine ⟨hv.1.attempt hbody, ?_⟩
      obtain ⟨mutated, -, ⟨-, object, data, -, -, rfl⟩ | rfl⟩ := attempt_cases hv.1.baseFile hbody
      · exact hlt
      · exact hv.2)
    ⟨henter, Nat.zero_le count⟩ h
  have hge := of_decide_eq_false hcond
  exact ⟨source, base, hsource, hbase, hsound, by omega⟩

/-! ## The header -/

theorem plain_ofData (n : ℕ) (data : Bytes) : (Variant.ofData n data).Plain := by
  intro c hc
  change c ∈ (hexdigest (Fips180.sha256 data)).toList at hc
  rw [hexdigest, String.toList_ofList] at hc
  obtain ⟨b, -, hc⟩ := List.mem_flatMap.1 hc
  simp only [List.mem_cons, List.not_mem_nil, or_false] at hc
  rcases hc with rfl | rfl
  · exact isWordChar_hexDigit _
  · exact isWordChar_hexDigit _

/-- The ids of a sound manifest count up from zero. -/
theorem Sound.ids (h : Sound tools base v) :
    v.manifest.variants.map (·.id) = List.range v.manifest.variants.length := by
  refine List.ext_getElem? fun i => ?_
  rw [List.getElem?_map]
  rcases hget : v.manifest.variants[i]? with _ | var
  · rw [List.getElem?_eq_none_iff] at hget
    rw [Option.map_none, List.getElem?_eq_none (by rwa [List.length_range])]
  · obtain ⟨data, rfl, -⟩ := h.entry i var hget
    obtain ⟨hi, -⟩ := List.getElem?_eq_some_iff.1 hget
    rw [Option.map_some, List.getElem?_range hi]
    rfl

theorem Sound.packable (h : Sound tools base v) : v.manifest.Packable v.files := by
  refine ⟨?_, fun var hvar => ?_, fun var hvar => ?_⟩
  · rw [h.ids]
    exact List.nodup_range
  · obtain ⟨i, hget⟩ := List.mem_iff_getElem?.1 hvar
    obtain ⟨data, rfl, -⟩ := h.entry i var hget
    exact plain_ofData i data
  · obtain ⟨i, hget⟩ := List.mem_iff_getElem?.1 hvar
    obtain ⟨data, rfl, hfile, -⟩ := h.entry i var hget
    exact Option.isSome_iff_exists.2 ⟨data, hfile⟩

/-- What the table is to say of variant `i`. -/
structure Baked (tools : ℕ → Tools) (base : Bytes) (i : ℕ) (record : Record) : Prop where
  id : record.id = i
  size : record.size = record.data.length
  hash : record.hash = hexdigest (Fips180.sha256 record.data)
  verified : Verified tools base record.data

/-- **The header of a sound manifest.** -/
theorem Sound.header (h : Sound tools base v) :
    ∃ pieces records, packageHeader v.manifest v.files = some pieces ∧
      readHeader (String.join pieces) = some (v.validCount, records) ∧
      records.length = v.validCount ∧
      ∀ i record, records[i]? = some record → Baked tools base i record := by
  obtain ⟨pieces, hpieces, hread⟩ := packaged_of_packable h.packable
  refine ⟨pieces, _, hpieces, by rw [hread, h.length], by rw [List.length_map, h.length],
    fun i record hget => ?_⟩
  rw [List.getElem?_map] at hget
  obtain ⟨var, hvar, rfl⟩ := Option.map_eq_some_iff.1 hget
  obtain ⟨data, rfl, hfile, hverified⟩ := h.entry i var hvar
  have hdata : ((Variant.ofData i data).record v.files).data = data := by
    change (v.files (binFile i)).getD [] = data
    rw [hfile, Option.getD_some]
  exact ⟨rfl, by rw [hdata]; rfl, by rw [hdata]; rfl, by rwa [hdata]⟩

end Pool

end HkSystem
