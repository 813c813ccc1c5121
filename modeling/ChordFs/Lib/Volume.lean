import ChordFs.Lib.SortedMap

/-! # Files that survive a power cut

A `Volume` is a set of named files as the kernel holds them, together with what the device holds.  A
name is on the device once the directory it stands in has been flushed, the bytes of a file once the
file has been.  A power cut (`cut`) takes any of the names that are not on the device back to what
the device has, and leaves nothing to rely on in a file that was not flushed.

What a name was flushed with, it keeps (`find?_cut`). -/

/-- The bytes of a file, and whether they are on the device. -/
structure File (β : Type*) where
  data : β
  flushed : Bool
deriving DecidableEq

/-- The named files: as the kernel has them, and the entries the device has. -/
structure Volume (ν β : Type*) [LinearOrder ν] where
  files : SortedMap ν (File β)
  device : ν → Option (File β)

namespace Volume

variable {ν β : Type*} [LinearOrder ν]

/-- A file is renamed to `name`, over what was there. -/
def place (V : Volume ν β) (name : ν) (f : File β) : Volume ν β :=
  { V with files := V.files.set name f }

def unlink (V : Volume ν β) (name : ν) : Volume ν β := { V with files := V.files.erase name }

/-- The directory of the names that pass is flushed. -/
def flush (V : Volume ν β) (inDir : ν → Bool) : Volume ν β :=
  { V with device := fun name => if inDir name then V.files.find? name else V.device name }

/-- What becomes of a file at a power cut. -/
def survive (noise : β) (f : File β) : File β := if f.flushed then f else ⟨noise, true⟩

/-- A power cut: the names in `lost` fall back to what the device has, and a file that was not
flushed holds anything. -/
def cut (V : Volume ν β) (lost : List ν) (noise : ν → β) : Volume ν β :=
  let back := lost.foldl (fun files name =>
    match V.device name with
    | some f => files.set name f
    | none => files.erase name) V.files
  let files := back.mapValues fun name f => survive (noise name) f
  ⟨files, files.find?⟩

/-! ### What is found -/

section found
variable {V : Volume ν β} {name k : ν} {f : File β}

theorem find?_place : (V.place name f).files.find? k = if k = name then some f else V.files.find? k :=
  SortedMap.find?_set

theorem find?_unlink : (V.unlink name).files.find? k = if k = name then none else V.files.find? k :=
  SortedMap.find?_erase

/-- **A power cut takes a name back to what the device has, or leaves it.** -/
theorem find?_cut (lost : List ν) (noise : ν → β) :
    (V.cut lost noise).files.find? k =
      (if k ∈ lost then V.device k else V.files.find? k).map (survive (noise k)) := by
  have hback : ∀ files : SortedMap ν (File β), (lost.foldl (fun files name =>
      match V.device name with
      | some f => files.set name f
      | none => files.erase name) files).find? k =
        if k ∈ lost then V.device k else files.find? k := by
    induction lost with
    | nil => simp
    | cons name lost ih =>
      intro files
      rw [List.foldl_cons, ih]
      -- the rest of the list either sets the name again or leaves it
      by_cases hk : k = name
      · subst hk
        cases hd : V.device k <;> simp [SortedMap.find?_set, SortedMap.find?_erase]
      · cases hd : V.device name <;> simp [SortedMap.find?_set, SortedMap.find?_erase, hk]
  rw [← hback V.files]
  exact SortedMap.find?_mapValues _

theorem device_cut (lost : List ν) (noise : ν → β) :
    (V.cut lost noise).device k = (V.cut lost noise).files.find? k := rfl

end found

end Volume
