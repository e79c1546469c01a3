import CellBag.Proofs.Bag.Image

/-!
# Framing of bags

A bag says in its header how long it is, and the header is determined by any bytes that begin with
it. So no bag begins another one: what is read is not read any more when bytes are cut off or added
at its end, under no limits (`decode_prefix_free`).
-/

namespace CellBag.Bag

/-- The length of an image follows from its header, so that no image begins a longer one. -/
lemma Image.eq_of_prefix {i j : Image} (vi : i.ValidIndex) (vj : j.ValidIndex)
    (si : i.header.Sized) (sj : j.header.Sized) (pre : i.bytes <+: j.bytes) : i.bytes = j.bytes := by
  obtain ⟨more, all⟩ := pre
  obtain ⟨rest, ei⟩ := i.exists_bytes_eq
  obtain ⟨rest', ej⟩ := j.exists_bytes_eq
  have begins : i.header.layout ++ (rest ++ more) = j.header.layout ++ rest' := by
    rw [← List.append_assoc, ← ei, ← ej]
    exact all
  obtain ⟨header, _⟩ := Header.layout_inj si sj begins
  have length : i.bytes.length = j.bytes.length := by
    rw [vi.length_bytes, vj.length_bytes, header]
  exact List.IsPrefix.eq_of_length ⟨more, all⟩ length

section Prefix
variable {xs ys : List UInt8} {limits limits' : Limits} {roots roots' : List Cell}

/-- Of two bags that are decoded neither is the beginning of the other one. -/
lemma eq_of_prefix_of_decode (run : decode xs limits = .ok roots)
    (run' : decode ys limits' = .ok roots') (pre : xs <+: ys) : xs = ys := by
  obtain ⟨i, vi, rfl⟩ := exists_image_of_decode run
  obtain ⟨j, vj, rfl⟩ := exists_image_of_decode run'
  exact Image.eq_of_prefix vi.toValidIndex vj.toValidIndex vi.header.sized vj.header.sized pre

/-- Bytes of which one begins the other are not both read, unless they are the same. -/
lemma exists_fault_of_prefix (run : decode xs limits = .ok roots) (pre : xs <+: ys ∨ ys <+: xs)
    (ne : xs ≠ ys) : ∃ fault, decode ys limits' = .error fault := by
  cases run' : decode ys limits' with
  | error fault => exact ⟨fault, rfl⟩
  | ok roots' =>
    cases pre with
    | inl pre => exact absurd (eq_of_prefix_of_decode run run' pre) ne
    | inr pre => exact absurd (eq_of_prefix_of_decode run' run pre).symm ne

end Prefix

/-- Bytes that are read as a bag begin no other bytes that are, whatever the limits are. So they are
not read when they are cut off somewhere, nor when others follow them. -/
theorem decode_prefix_free {xs : List UInt8} {limits : Limits} {roots : List Cell}
    (run : decode xs limits = .ok roots) :
    (∀ ys limits' roots', decode ys limits' = .ok roots' → xs <+: ys → xs = ys) ∧
    (∀ n < xs.length, ∀ limits', ∃ fault, decode (xs.take n) limits' = .error fault) ∧
    ∀ zs ≠ [], ∀ limits', ∃ fault, decode (xs ++ zs) limits' = .error fault := by
  refine ⟨fun ys limits' roots' run' pre => eq_of_prefix_of_decode run run' pre,
    fun n lt limits' => ?_, fun zs ne limits' => ?_⟩
  · have cut : xs ≠ xs.take n := by
      intro same
      have length := congrArg List.length same
      rw [List.length_take] at length
      omega
    exact exists_fault_of_prefix run (Or.inr (List.take_prefix n xs)) cut
  · have longer : xs ≠ xs ++ zs := fun same => ne (List.self_eq_append_right.1 same)
    exact exists_fault_of_prefix run (Or.inl (List.prefix_append xs zs)) longer

/-- The bag of the empty cell, without an index and a checksum, with one byte less and one more. -/
theorem decode_prefix_free_empty :
    ∃ roots, decode [0xB5, 0xEE, 0x9C, 0x72, 1, 1, 1, 1, 0, 2, 0, 0, 0] {} = .ok roots ∧
      (∃ fault, decode [0xB5, 0xEE, 0x9C, 0x72, 1, 1, 1, 1, 0, 2, 0, 0] {} = .error fault) ∧
      ∃ fault, decode [0xB5, 0xEE, 0x9C, 0x72, 1, 1, 1, 1, 0, 2, 0, 0, 0, 0] {} = .error fault := by
  have read : (do
      let roots ← decode [0xB5, 0xEE, 0x9C, 0x72, 1, 1, 1, 1, 0, 2, 0, 0, 0] {}
      return roots.length) = .ok 1 := by decide +kernel
  obtain ⟨roots, run, _⟩ := Outcome.bind_eq_ok.1 read
  obtain ⟨_, cut, longer⟩ := decode_prefix_free run
  exact ⟨roots, run, cut 12 (by decide) {}, longer [0] (by decide) {}⟩

end CellBag.Bag
