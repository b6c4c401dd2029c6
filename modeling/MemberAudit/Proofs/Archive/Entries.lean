/-
The entries of an archive. No two that it opens to have one name
(`nodup_names_of_open?`), and reading an entry that was stored as it is gives what was
stored (`content_stored`). Entries are packed into an archive one after the other, with
their headers before them and once more in the directory (`pack`).
-/
import MemberAudit.Archive

namespace MemberAudit.Archive

/-! ## Names -/

theorem names_addEntry (entry : Entry) (entries : List Entry) :
    (addEntry entry entries).map (·.name) =
      if entry.name ∈ entries.map (·.name) then entries.map (·.name)
      else entries.map (·.name) ++ [entry.name] := by
  induction entries with
  | nil => rfl
  | cons other rest ih =>
    by_cases h : other.name = entry.name
    · simp [addEntry, h]
    · simp only [addEntry, h, ite_false, List.map_cons, ih, List.mem_cons, Ne.symm h, false_or]
      split <;> rfl

theorem nodup_names_addEntry {entry : Entry} {entries : List Entry}
    (h : (entries.map (·.name)).Nodup) : ((addEntry entry entries).map (·.name)).Nodup := by
  rw [names_addEntry]
  split
  · exact h
  · rename_i hnew
    exact List.nodup_append.mpr ⟨h, by simp, fun a ha b hb hab =>
      hnew (List.mem_singleton.mp hb ▸ hab ▸ ha)⟩

/-- An archive opens to entries of different names. -/
theorem nodup_names_of_open? {bytes : Bytes} {entries : List Entry} (h : open? bytes = some entries) :
    (entries.map (·.name)).Nodup := by
  obtain ⟨position, -, hentries⟩ := List.exists_of_findSome?_eq_some h
  obtain ⟨place, -, hentries⟩ := Option.bind_eq_some_iff.mp hentries
  obtain ⟨headers, -, hentries⟩ := Option.bind_eq_some_iff.mp hentries
  obtain rfl := Option.some.inj hentries
  refine List.foldlRecOn (motive := fun found : List Entry => (found.map (·.name)).Nodup) headers _ ?_ ?_
  · exact List.nodup_nil
  · exact fun found hfound header _ => nodup_names_addEntry hfound

/-! ## Contents -/

/-- Whether reading an entry gives what was packed. -/
def Entry.Intact (entry : Entry) : Prop :=
  ∃ bytes, entry.content = .intact bytes

instance (entry : Entry) : Decidable entry.Intact :=
  match h : entry.content with
  | .intact bytes => isTrue ⟨bytes, h⟩
  | .closed | .damaged => isFalse fun hintact => by
    obtain ⟨bytes, hbytes⟩ := hintact
    rw [h] at hbytes
    cases hbytes

theorem Entry.opens_of_content {entry : Entry} {bytes : Bytes} (h : entry.content = .intact bytes) :
    entry.opens = true := by
  rw [content] at h
  split at h
  · cases h
  · rename_i hopens
    simpa using hopens

/-- An entry stored as it is, without a password. -/
def stored (name : String) (bytes : Bytes) : Entry :=
  ⟨name, false, 0, (checksum bytes).toNat, some bytes⟩

theorem content_stored (name : String) (bytes : Bytes) :
    (stored name bytes).content = .intact bytes := by
  simp [stored, Entry.content, Entry.opens, Entry.unpacked?, knownMethods]

/-! ## Packing -/

/-- A number in so many bytes, the low byte first. -/
def lowFirst : Nat → Nat → Bytes
  | 0, _ => []
  | width + 1, n => (n % 256).toUInt8 :: lowFirst width (n / 256)

def Entry.rawName (entry : Entry) : Bytes :=
  entry.name.toUTF8.data.toList

def Entry.packed (entry : Entry) : Bytes :=
  entry.data?.getD []

/-- What both headers of an entry tell, from the version needed to the length of the extra
fields, of which there are none. The name is marked as UTF-8. -/
def Entry.fields (entry : Entry) : Bytes :=
  [20, 0, if entry.locked then 1 else 0, 8] ++ lowFirst 2 entry.method ++ [0, 0, 33, 0]
    ++ lowFirst 4 entry.checksum ++ lowFirst 4 entry.packed.length ++ lowFirst 4 entry.packed.length
    ++ lowFirst 2 entry.rawName.length ++ lowFirst 2 0

def Entry.record (entry : Entry) : Bytes :=
  entrySignature ++ entry.fields ++ entry.rawName ++ entry.packed

/-- The header of an entry in the directory: no comment, first disk, no attributes. -/
def Entry.directoryRecord (offset : Nat) (entry : Entry) : Bytes :=
  directorySignature ++ [20, 0] ++ entry.fields ++ List.replicate 10 0 ++ lowFirst 4 offset
    ++ entry.rawName

/-- The directory of entries of which the first stands at an offset. -/
def packDirectory (offset : Nat) : List Entry → Bytes
  | [] => []
  | entry :: rest =>
    entry.directoryRecord offset ++ packDirectory (offset + entry.record.length) rest

/-- An archive of the entries, in their order. -/
def pack (entries : List Entry) : Bytes :=
  let records := entries.flatMap Entry.record
  let directory := packDirectory 0 entries
  records ++ directory ++ endSignature ++ lowFirst 4 0 ++ lowFirst 2 entries.length
    ++ lowFirst 2 entries.length ++ lowFirst 4 directory.length ++ lowFirst 4 records.length
    ++ lowFirst 2 0

end MemberAudit.Archive
