import ChunkStrings.Proofs.CompactCensus

/-!
# Content behind a keystream

What the pass of the keystream is good for: a string is stored by running the pass over it, and
read by running the pass once more. That it comes back is due to two facts about the pass, that it
undoes itself and that it keeps the number of bytes; the second is what lets the reader, who knows
the stored bytes only, start with the same counter.

The pass hides nothing. It goes by the number of bytes alone, so two strings of one length are
stored with the same mask, and where they differ can be told from what is stored.
-/

namespace ChunkStrings

variable {format : ChunkFormat} {content : ByteArray}

/-- **A string is read back from either of its forms**, wherever it stands and whatever was gathered
or logged before. -/
theorem Compact.exists_run_of_form {bytes : ByteArray}
    (h : 0 < content.size ∧ content.size < extended.toNat ∧ bytes = shortForm content ∨
      content.size < format.width.limit ∧ bytes = longForm format content)
    (front rest scratch : ByteArray) (log : Array LogLine) : ∃ after,
      (Layout.compact.decodeTraced format).run ⟨.between front (bytes ++ rest), scratch, log⟩ =
        .ok (.ofBytes content) after ∧ after.cursor = .between (front ++ bytes) rest := by
  obtain ⟨record, rfl, hvalue⟩ := exists_record_iff.mpr ⟨rfl, h⟩
  rw [StringConst.ofBytes, ← hvalue]
  exact record.exists_run_decodeTraced front rest scratch log

/-- **The pass of the keystream is driven by the number of bytes alone, and undoes itself.** It
keeps the number of bytes and the first of them. What two buffers of one length differ by at an
index is the same after it; so if one byte is changed, this byte and no other one comes out
changed. And what it makes of a string, behind the size of the string, is read as the string:
behind a size byte that is neither zero nor the greatest, and behind the greatest and a length, if
the size fits into the width. -/
theorem Keystream.apply_lengthDriven :
    (∀ buffer : ByteArray, apply (apply buffer) = buffer ∧
      (apply buffer).size = buffer.size ∧
      ∀ (h : 0 < buffer.size) (h' : 0 < (apply buffer).size), (apply buffer)[0] = buffer[0]) ∧
    (∀ a b : ByteArray, a.size = b.size → ∀ (i : Nat) (h : i < a.size) (h' : i < b.size)
      (hi : i < (apply a).size) (hi' : i < (apply b).size),
      (apply a)[i] ^^^ (apply b)[i] = a[i] ^^^ b[i]) ∧
    (∀ (buffer : ByteArray) (changed : Nat) (h : changed < buffer.size) (byte : UInt8),
      byte ≠ buffer[changed] → ∀ (i : Nat) (hi : i < (apply (buffer.set changed byte h)).size)
        (hi' : i < (apply buffer).size),
        (apply (buffer.set changed byte h))[i] ≠ (apply buffer)[i] ↔ i = changed) ∧
    ∀ (format : ChunkFormat) (content front rest scratch : ByteArray) (log : Array LogLine),
      let reads := fun bytes : ByteArray => ∃ after,
        (Layout.compact.decodeTraced format).run ⟨.between front (bytes ++ rest), scratch, log⟩ =
          .ok (.ofBytes content) after ∧ after.cursor = .between (front ++ bytes) rest
      0 < content.size →
        (content.size ≤ 254 → reads ([UInt8.ofNat content.size].toByteArray ++ apply content)) ∧
        (content.size < 256 ^ format.width.bytes →
          reads ([0xff].toByteArray ++ (format.field content.size ++ apply content))) := by
  refine ⟨fun buffer => ⟨apply_apply buffer, size_apply buffer, fun h h' => ?_⟩,
    fun a b hsize i h h' hi hi' => xor_getElem_apply hsize hi hi' h h',
    fun buffer changed h byte hbyte i hi hi' => getElem_apply_set_ne_iff h hbyte hi hi', ?_⟩
  · rw [getElem_apply h' h, mask, UInt8.xor_zero]
  · intro format content front rest scratch log reads hpos
    refine ⟨fun hle => ?_, fun hlt => ?_⟩
    · exact Compact.exists_run_of_form (.inl ⟨hpos, Nat.lt_succ_of_le hle, rfl⟩)
        front rest scratch log
    · rw [← format.width.limit_eq_pow] at hlt
      exact Compact.exists_run_of_form (.inr ⟨hlt, rfl⟩) front rest scratch log

/-- Four letters: the first is stored as it is, and a size byte in front of them, or a length behind
the greatest one, is enough to read them again. -/
theorem Keystream.apply_lengthDriven_letters :
    let format : ChunkFormat := ⟨0x53, ⟨1, by decide, by decide⟩, .big, false⟩
    let letters := [0x41, 0x42, 0x43, 0x44].toByteArray
    let reads := fun bytes : ByteArray => ∃ after,
      (Layout.compact.decodeTraced format).run ⟨.between .empty (bytes ++ .empty), .empty, #[]⟩ =
        .ok (.ofBytes letters) after ∧ after.cursor = .between (.empty ++ bytes) .empty
    apply letters = [0x41, 0x41, 0x45, 0x48].toByteArray ∧
      reads [4, 0x41, 0x41, 0x45, 0x48].toByteArray ∧
      reads [0xff, 4, 0x41, 0x41, 0x45, 0x48].toByteArray := by
  intro format letters reads
  have hstored : apply letters = [0x41, 0x41, 0x45, 0x48].toByteArray := by decide
  have hshort : [4, 0x41, 0x41, 0x45, 0x48].toByteArray =
      [UInt8.ofNat letters.size].toByteArray ++ apply letters := by decide
  have hlong : [0xff, 4, 0x41, 0x41, 0x45, 0x48].toByteArray =
      [0xff].toByteArray ++ (format.field letters.size ++ apply letters) := by decide
  obtain ⟨-, -, -, hread⟩ := apply_lengthDriven
  obtain ⟨hbyte, hlength⟩ := hread format letters .empty .empty .empty #[] (by decide)
  refine ⟨hstored, ?_, ?_⟩
  · rw [hshort]
    exact hbyte (by decide)
  · rw [hlong]
    exact hlength (by decide)

end ChunkStrings
