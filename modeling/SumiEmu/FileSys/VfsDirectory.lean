/-
# Deleting a directory with what is in it

A directory has files and subdirectories, and the elementary operations delete the first of a name.
The recursive deletions go through a snapshot of the files and subdirectories of the directory that
they have found. Deleting asks the receiver for the files, not the directory that was found, and
never asks for a directory. So it changes no directory's subdirectories, which cleaning fails on as
well.
-/

import SumiEmu.FileSys.VirtualFile

namespace SumiEmu.FileSys

open List

inductive VfsDirectory
  | directory (name : String) (files : List VfsFile) (subdirectories : List VfsDirectory)

namespace VfsDirectory

def name : VfsDirectory → String
  | directory name _ _ => name

def files : VfsDirectory → List VfsFile
  | directory _ files _ => files

def subdirectories : VfsDirectory → List VfsDirectory
  | directory _ _ subdirectories => subdirectories

variable (d : VfsDirectory)

/-- `GetSubdirectory`. -/
def getSubdirectory (name : String) : Option VfsDirectory :=
  d.subdirectories.find? (·.name = name)

/-- The first file of a name is deleted, if there is one. -/
def deleteFile (name : String) : Bool × VfsDirectory :=
  if d.files.any (·.name = name) then
    (true, directory d.name (d.files.eraseP (·.name = name)) d.subdirectories)
  else (false, d)

/-- The first subdirectory of a name is deleted, if there is one. -/
def deleteSubdirectory (name : String) : Bool × VfsDirectory :=
  if d.subdirectories.any (·.name = name) then
    (true, directory d.name d.files (d.subdirectories.eraseP (·.name = name)))
  else (false, d)

def putFirst (name : String) (child : VfsDirectory) : List VfsDirectory → List VfsDirectory
  | [] => []
  | d :: ds => if d.name = name then child :: ds else d :: putFirst name child ds

/-- A directory whose subdirectory has been changed in place. -/
def putSubdirectory (name : String) (child : VfsDirectory) : VfsDirectory :=
  directory d.name d.files (putFirst name child d.subdirectories)

mutual

/-- How many levels of subdirectories there are. -/
def height : VfsDirectory → Nat
  | directory _ _ subdirectories => heights subdirectories

def heights : List VfsDirectory → Nat
  | [] => 0
  | d :: ds => max (d.height + 1) (heights ds)

end

/-- What is named is deleted one after the other. Success is lost with the first failure. -/
def deleteEach (delete : VfsDirectory → String → Bool × VfsDirectory) :
    List String → Bool × VfsDirectory → Bool × VfsDirectory
  | [], result => result
  | name :: names, (success, d) =>
    let (deleted, d) := delete d name
    deleteEach delete names (success && deleted, d)

/-- The recursion down to a level. -/
def deleteIn : Nat → VfsDirectory → String → Bool × VfsDirectory
  | 0, d, _ => (false, d)
  | levels + 1, d, name =>
    match d.getSubdirectory name with
    | none => (false, d)
    | some dir =>
      let (success, d) := deleteEach deleteFile (dir.files.map (·.name)) (true, d)
      let (success, dir) := deleteEach (deleteIn levels) (dir.subdirectories.map (·.name))
        (success, dir)
      (success, d.putSubdirectory name dir)

/-- `DeleteSubdirectoryRecursive`. -/
def deleteSubdirectoryRecursive (d : VfsDirectory) (name : String) : Bool × VfsDirectory :=
  deleteIn d.height d name

/-- `CleanSubdirectoryRecursive`. -/
def cleanSubdirectoryRecursive (d : VfsDirectory) (name : String) : Bool × VfsDirectory :=
  match d.getSubdirectory name with
  | none => (false, d)
  | some dir =>
    let (success, dir) := deleteEach deleteFile (dir.files.map (·.name)) (true, dir)
    let (success, dir) :=
      deleteEach deleteSubdirectoryRecursive (dir.subdirectories.map (·.name)) (success, dir)
    (success, d.putSubdirectory name dir)

/-- The subdirectory is gone, as if it had been deleted with the elementary operation. -/
def DeletesExactly (d : VfsDirectory) (name : String) : Prop :=
  d.deleteSubdirectoryRecursive name = (true, (d.deleteSubdirectory name).2)

/-- The subdirectory is empty, and everything else is as before. -/
def CleansExactly (d : VfsDirectory) (name : String) (child : VfsDirectory) : Prop :=
  d.cleanSubdirectoryRecursive name =
    (true, d.putSubdirectory name (directory child.name [] []))

/-! ## What the deletions keep -/

/-- Two directories have one name, and their subdirectories have the same names and levels. -/
structure Alike (d d' : VfsDirectory) : Prop where
  name : d'.name = d.name
  names : d'.subdirectories.map VfsDirectory.name = d.subdirectories.map VfsDirectory.name
  height : d'.height = d.height

variable {d d' child : VfsDirectory} {name : String}

theorem Alike.refl (d : VfsDirectory) : d.Alike d := ⟨rfl, rfl, rfl⟩

theorem Alike.trans {d'' : VfsDirectory} (first : d.Alike d') (second : d'.Alike d'') :
    d.Alike d'' :=
  ⟨second.name.trans first.name, second.names.trans first.names, second.height.trans first.height⟩

theorem alike_deleteFile (d : VfsDirectory) (name : String) : d.Alike (d.deleteFile name).2 := by
  obtain ⟨own, files, subdirectories⟩ := d
  rw [deleteFile]
  split
  · exact ⟨rfl, rfl, rfl⟩
  · exact Alike.refl _

theorem alike_deleteEach {delete : VfsDirectory → String → Bool × VfsDirectory}
    (alike : ∀ (d : VfsDirectory) name, d.Alike (delete d name).2) (names : List String)
    (success : Bool)
    (d : VfsDirectory) : d.Alike (deleteEach delete names (success, d)).2 := by
  induction names generalizing success d with
  | nil => exact Alike.refl d
  | cons name names ih => exact (alike d name).trans (ih ..)

theorem name_getSubdirectory (found : d.getSubdirectory name = some child) : child.name = name := by
  rw [getSubdirectory] at found
  have named := List.find?_some found
  exact of_decide_eq_true named

/-- A subdirectory that is put in the place of one like it. -/
theorem putFirst_alike {ds : List VfsDirectory} (found : ds.find? (·.name = name) = some child)
    (alike : child.Alike d') :
    (putFirst name d' ds).map VfsDirectory.name = ds.map VfsDirectory.name ∧
      heights (putFirst name d' ds) = heights ds := by
  induction ds with
  | nil => cases found
  | cons first ds ih =>
    rw [putFirst]
    by_cases here : first.name = name
    · rw [List.find?_cons_of_pos (by simpa using here)] at found
      obtain rfl := Option.some.inj found
      rw [if_pos here, map_cons, map_cons, heights, heights, alike.name, alike.height]
      exact ⟨rfl, rfl⟩
    · rw [List.find?_cons_of_neg (by simpa using here)] at found
      obtain ⟨names, levels⟩ := ih found
      rw [if_neg here, map_cons, map_cons, heights, heights, names, levels]
      exact ⟨rfl, rfl⟩

theorem alike_putSubdirectory (found : d.getSubdirectory name = some child)
    (alike : child.Alike d') : d.Alike (d.putSubdirectory name d') := by
  obtain ⟨own, files, subdirectories⟩ := d
  obtain ⟨names, levels⟩ := putFirst_alike found alike
  exact ⟨rfl, names, levels⟩

/-- Files that are deleted leave the subdirectories as they are. -/
theorem subdirectories_deleteEach (names : List String) (success : Bool) (d : VfsDirectory) :
    (deleteEach deleteFile names (success, d)).2.subdirectories = d.subdirectories := by
  induction names generalizing success d with
  | nil => rfl
  | cons name names ih =>
    rw [deleteEach, ih, deleteFile]
    split <;> rfl

theorem alike_deleteIn (levels : Nat) (d : VfsDirectory) (name : String) :
    d.Alike (deleteIn levels d name).2 := by
  induction levels generalizing d name with
  | zero => exact Alike.refl d
  | succ levels ih =>
    rw [deleteIn]
    cases found : d.getSubdirectory name with
    | none => exact Alike.refl d
    | some dir =>
      dsimp only
      have swept := alike_deleteEach alike_deleteFile (dir.files.map (·.name)) true d
      refine swept.trans (alike_putSubdirectory ?_ (alike_deleteEach ih _ _ dir))
      rw [getSubdirectory, subdirectories_deleteEach]
      exact found

theorem alike_deleteSubdirectoryRecursive (d : VfsDirectory) (name : String) :
    d.Alike (d.deleteSubdirectoryRecursive name).2 := alike_deleteIn ..

/-! ## What is left undone -/

/-- No subdirectory is ever deleted. -/
theorem not_deletesExactly (existing : d.getSubdirectory name = some child) :
    ¬ d.DeletesExactly name := by
  intro deletes
  have isOne : child ∈ d.subdirectories := mem_of_find?_eq_some existing
  have named := name_getSubdirectory existing
  have some : d.subdirectories.any (·.name = name) = true :=
    any_eq_true.2 ⟨child, isOne, decide_eq_true named⟩
  have kept := congrArg List.length (alike_deleteSubdirectoryRecursive d name).names
  rw [deletes, deleteSubdirectory, if_pos some, length_map, length_map] at kept
  have fewer := length_eraseP_of_mem (p := fun e : VfsDirectory => e.name = name) isOne
    (decide_eq_true named)
  have positive := length_pos_of_mem isOne
  rw [subdirectories] at kept
  omega

/-- The files of a directory are all deleted, from the first one on. -/
theorem deleteEach_files (files : List VfsFile) (success : Bool) (own : String)
    (subdirectories : List VfsDirectory) :
    deleteEach deleteFile (files.map (·.name)) (success, directory own files subdirectories) =
      (success, directory own [] subdirectories) := by
  induction files with
  | nil => rfl
  | cons file files ih =>
    have here : (file :: files).any (·.name = file.name) = true := by simp
    have first : deleteFile (directory own (file :: files) subdirectories) file.name =
        (true, directory own files subdirectories) := by
      rw [deleteFile, VfsDirectory.files, if_pos here, eraseP_cons_of_pos (by simp)]
      rfl
    rw [map_cons, deleteEach, first]
    dsimp only
    rw [Bool.and_true, ih]

theorem putFirst_inj {ds : List VfsDirectory} {d'' : VfsDirectory}
    (found : ds.find? (·.name = name) = some child)
    (same : putFirst name d' ds = putFirst name d'' ds) : d' = d'' := by
  induction ds with
  | nil => cases found
  | cons first ds ih =>
    rw [putFirst, putFirst] at same
    by_cases here : first.name = name
    · rw [if_pos here, if_pos here] at same
      exact (List.cons.inj same).1
    · rw [if_neg here, if_neg here] at same
      rw [List.find?_cons_of_neg (by simpa using here)] at found
      exact ih found (List.cons.inj same).2

/-- Cleaning leaves the subdirectories of the directory. -/
theorem cleansExactly_iff (existing : d.getSubdirectory name = some child) :
    d.CleansExactly name child ↔ child.subdirectories = [] := by
  obtain ⟨own, files, subdirectories⟩ := child
  rw [CleansExactly, cleanSubdirectoryRecursive, existing]
  dsimp only [VfsDirectory.files, VfsDirectory.subdirectories, VfsDirectory.name]
  rw [deleteEach_files]
  constructor
  · intro cleans
    have swept : (deleteEach deleteSubdirectoryRecursive (subdirectories.map VfsDirectory.name)
        (true, directory own [] subdirectories)).2 = directory own [] [] :=
      putFirst_inj existing (congrArg VfsDirectory.subdirectories (congrArg Prod.snd cleans))
    have kept := (alike_deleteEach alike_deleteSubdirectoryRecursive
      (subdirectories.map VfsDirectory.name) true (directory own [] subdirectories)).names
    rw [swept] at kept
    exact map_eq_nil_iff.1 kept.symm
  · rintro rfl
    rfl

/-- Recursive deletion never deletes the directory, and cleaning is complete exactly if it has no
subdirectories. -/
theorem deletes_never_and_cleans_iff (d : VfsDirectory) (name : String) (child : VfsDirectory)
    (existing : d.getSubdirectory name = some child) :
    ¬ d.DeletesExactly name ∧ (d.CleansExactly name child ↔ child.subdirectories = []) :=
  ⟨not_deletesExactly existing, cleansExactly_iff existing⟩

/-- A directory and its subdirectory both have a file of the same name. -/
def sameNames : VfsDirectory :=
  directory "root" [⟨"a", [1]⟩] [directory "child" [⟨"a", [2]⟩] []]

theorem deletes_never_and_cleans_iff_sameNames :
    sameNames.getSubdirectory "child" = some (directory "child" [⟨"a", [2]⟩] []) ∧
      ¬ sameNames.DeletesExactly "child" ∧
        (sameNames.CleansExactly "child" (directory "child" [⟨"a", [2]⟩] []) ↔
          ([] : List VfsDirectory) = []) :=
  ⟨rfl, deletes_never_and_cleans_iff sameNames "child" _ rfl⟩

/-- The file of the directory itself is deleted, and the subdirectory stays with its own. -/
theorem not_forall_deletesExactly :
    sameNames.deleteSubdirectoryRecursive "child" =
        (true, directory "root" [] [directory "child" [⟨"a", [2]⟩] []]) ∧
      ¬ ∀ (d : VfsDirectory) (name : String) (child : VfsDirectory),
        d.getSubdirectory name = some child → d.DeletesExactly name ∧ d.CleansExactly name child :=
  ⟨rfl, fun exactly => not_deletesExactly rfl (exactly sameNames "child" _ rfl).1⟩

end VfsDirectory

end SumiEmu.FileSys
