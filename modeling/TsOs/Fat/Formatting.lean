import TsOs.Fat.Paths

/-!
# Formatted names

`fat16_filename_fmt` copies nine bytes, whatever follows the name, and pads up to the
terminator that it finds among them or behind them. An entry is found under another name
when the two agree in the eight characters that are left of them.
-/

namespace TsOs.Fat
open ByteMemory

/-- The names agree on their first eight characters, padded with spaces and without regard to case. -/
def SameName (name name' : List UInt8) : Prop :=
  ∀ i < 8, upperCase (name.getD i space) = upperCase (name'.getD i space)

/-- The new entry for the name at `s`. -/
def direntAt (s : Mem) (dir : Bool) (newCluster : Nat) : DirEnt :=
  let e := fat16FilenameFmt (fun _ => 0) s
  let e := if dir then store8 e 11 entAttrDir else patch e 8 txtExt
  DirEnt.setStartCluster e newCluster

variable {name name' : List UInt8} {s t buf : Mem} {dir : Bool} {c : Nat}

theorem newDirent_eq_direntAt : newDirent name dir c = direntAt (cstr name) dir c := rfl

/-- The name of the entry is not changed by the attributes, the extension and the cluster. -/
theorem direntAt_of_lt {i : Nat} (hi : i < 8) : direntAt s dir c i = fat16FilenameFmt (fun _ => 0) s i := by
  have hstart : direntAt s dir c i = (if dir then
      store8 (fat16FilenameFmt (fun _ => 0) s) 11 entAttrDir
      else patch (fat16FilenameFmt (fun _ => 0) s) 8 txtExt) i :=
    store_of_outside _ _ _ (by omega)
  rw [hstart]
  cases dir with
  | true => exact store8_of_ne _ _ _ (by omega)
  | false => exact patch_of_outside _ (by omega)

theorem fatFilenameMatch_direntAt (hs : NameAt name s) (ht : NameAt name' t) (hbuf : buf 9 = 0) :
    fatFilenameMatch (direntAt s dir c) (fat16FilenameFmt buf t) = true ↔ SameName name name' := by
  rw [fatFilenameMatch_iff]
  refine forall₂_congr fun i hi => ?_
  rw [direntAt_of_lt hi, fat16FilenameFmt_nameAt hs fun _ => rfl, fat16FilenameFmt_nameAt ht fun _ => hbuf,
    if_pos hi, if_pos hi]

/-- A name of any length is written in upper case, cut or padded to eight characters, with a space behind
them, and an entry is found exactly under the names that agree with its own one there. -/
theorem fat16FilenameFmt_pads (hs : NameAt name s) (ht : NameAt name' t) (hbuf : ∀ i, 9 ≤ i → buf i = 0)
    (dir : Bool) (c : Nat) :
    (∀ i < 8, fat16FilenameFmt buf s i = upperCase (name.getD i space)) ∧ fat16FilenameFmt buf s 8 = space ∧
      (fatFilenameMatch (direntAt s dir c) (fat16FilenameFmt buf t) = true ↔ SameName name name') := by
  have hnine : 8 < name.length → buf 9 = 0 := fun _ => hbuf 9 (le_refl 9)
  have hformat := fat16FilenameFmt_nameAt hs hnine
  refine ⟨fun i hi => ?_, hformat 8, fatFilenameMatch_direntAt hs ht (hbuf 9 (le_refl 9))⟩
  rw [hformat, if_pos hi]

/-- The nine letters of `directory` in lower case, and eight of them in upper case before other bytes. -/
theorem fat16FilenameFmt_pads_sample :
    fatFilenameMatch
      (direntAt (cstr [100, 105, 114, 101, 99, 116, 111, 114, 121]) false 3)
      (fat16FilenameFmt (fun _ => 0)
        fun i => [68, 73, 82, 69, 67, 84, 79, 82, 0, 7].getD i 9) = true := by
  have hs : NameAt [100, 105, 114, 101, 99, 116, 111, 114, 121]
      (cstr [100, 105, 114, 101, 99, 116, 111, 114, 121]) := nameAt_cstr (by decide)
  have ht : NameAt [68, 73, 82, 69, 67, 84, 79, 82]
      (fun i => [68, 73, 82, 69, 67, 84, 79, 82, 0, 7].getD i 9) := ⟨by decide, by decide⟩
  have hbuf : ∀ i, 9 ≤ i → (fun _ => 0 : Mem) i = 0 := fun _ _ => rfl
  have hpads := fat16FilenameFmt_pads hs ht hbuf false 3
  exact hpads.2.2.mpr (by unfold SameName; decide)

end TsOs.Fat
