import DiagramRegistry.Disk.Name
import DiagramRegistry.Proofs.Text.Utf8

/-
# Names that are no texts

The name of an entry in a tree stands for the bytes that a file system keeps, and for no others.
Reading it decodes these bytes, so that entries with different names can be read as the same text,
unless the names are texts.

* `Disk.readName_nameOfBytes`: reading the name of an entry decodes its bytes;
* `Disk.nameOfBytes_injective`: entries with different bytes have different names;
* `Disk.isText_nameOfBytes_iff`: the names that are texts.
-/
namespace DiagramRegistry.Disk

variable {name : String} {bytes bytes' : List UInt8} {cs : List Char}

/-- A text is read as it is. -/
lemma readName_of_isText (h : IsText name) : readName name = name := by
  unfold readName
  split
  · rename_i rest hname
    exact absurd (hname ▸ List.mem_cons_self) h
  · rfl

/-- The name of an entry with the bytes of a text is this text. -/
lemma nameOfBytes_encoded (cs : List Char) : nameOfBytes (Utf8.encoded cs) = String.ofList cs := by
  rw [nameOfBytes, Utf8.decode_encoded, if_pos rfl]

lemma nul_mem_encoded (h : '\x00' ∈ cs) : 0 ∈ Utf8.encoded cs :=
  List.mem_flatMap.2 ⟨'\x00', h, by decide⟩

/-- Bytes without a NUL either encode a text without a NUL, or are escaped. -/
lemma nameOfBytes_cases (h : 0 ∉ bytes) :
    (∃ cs, '\x00' ∉ cs ∧ bytes = Utf8.encoded cs ∧ nameOfBytes bytes = String.ofList cs) ∨
    ((∀ cs, bytes ≠ Utf8.encoded cs) ∧
      nameOfBytes bytes = String.ofList ('\x00' :: bytes.map fun b => Char.ofNat b.toNat)) := by
  by_cases htext : Utf8.encoded (Utf8.decode bytes) = bytes
  · refine .inl ⟨Utf8.decode bytes, fun hnul => h ?_, htext.symm, if_pos htext⟩
    exact htext ▸ nul_mem_encoded hnul
  · refine .inr ⟨fun cs hcs => htext ?_, if_neg htext⟩
    rw [hcs, Utf8.decode_encoded]

/-- An escaped byte is the character with its number. -/
lemma toNat_ofNat_toNat (b : UInt8) : (Char.ofNat b.toNat).toNat = b.toNat := by
  have hb := b.toNat_lt
  rw [Char.ofNat, dif_pos (Or.inl (by omega))]
  rfl

lemma map_ofNat_toNat (bytes : List UInt8) :
    (bytes.map fun b => Char.ofNat b.toNat).map (fun c => UInt8.ofNat c.toNat) = bytes := by
  rw [List.map_map]
  refine (List.map_congr_left fun b _ => ?_).trans (List.map_id bytes)
  rw [Function.comp_apply, toNat_ofNat_toNat, UInt8.ofNat_toNat, id_eq]

/-- Reading the name of an entry decodes its bytes. -/
theorem readName_nameOfBytes (h : 0 ∉ bytes) :
    readName (nameOfBytes bytes) = String.ofList (Utf8.decode bytes) := by
  rcases nameOfBytes_cases h with ⟨cs, hnul, rfl, hname⟩ | ⟨-, hname⟩
  · rw [hname, Utf8.decode_encoded, readName_of_isText (by simpa [IsText] using hnul)]
  · rw [hname, readName, String.toList_ofList]
    simp only [map_ofNat_toNat]

/-- The names that are texts are those whose bytes encode one. -/
theorem isText_nameOfBytes_iff (h : 0 ∉ bytes) :
    IsText (nameOfBytes bytes) ↔ ∃ cs, bytes = Utf8.encoded cs := by
  rcases nameOfBytes_cases h with ⟨cs, hnul, hbytes, hname⟩ | ⟨hno, hname⟩
  · exact iff_of_true (by simpa [IsText, hname] using hnul) ⟨cs, hbytes⟩
  · exact iff_of_false (by simp [IsText, hname]) fun ⟨cs, hcs⟩ => hno cs hcs

/-- Entries with different bytes have different names. -/
theorem nameOfBytes_injective (h : 0 ∉ bytes) (h' : 0 ∉ bytes')
    (heq : nameOfBytes bytes = nameOfBytes bytes') : bytes = bytes' := by
  rcases nameOfBytes_cases h with ⟨cs, hnul, rfl, hname⟩ | ⟨-, hname⟩ <;>
    rcases nameOfBytes_cases h' with ⟨cs', hnul', rfl, hname'⟩ | ⟨-, hname'⟩ <;>
    rw [hname, hname', String.ofList_inj] at heq
  · rw [heq]
  · exact absurd (heq ▸ List.mem_cons_self) hnul
  · exact absurd (heq ▸ List.mem_cons_self) hnul'
  · rw [← map_ofNat_toNat bytes, (List.cons.inj heq).2, map_ofNat_toNat]

end DiagramRegistry.Disk
