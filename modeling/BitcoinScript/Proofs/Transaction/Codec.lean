import BitcoinScript.Rules.Limits
import BitcoinScript.Transaction.Reader

/-!
# Reading back what is written

A reader takes a value off the front of a byte string. Every reader takes off exactly what the
writing of the same kind of value puts there, whatever follows (`Reader.Reads`): numbers, counts,
sized strings, inputs, outputs, and at last transactions without witnesses
(`Reader.transaction_reads`). So no writing is the beginning of another one (`Reads.append_inj`),
and values written one after the other are determined even if their number is not written
(`Reads.flatMap_inj`).

Counts and lengths are written in at most 64 bits, and longer lists could not be told from shorter
ones. `Transaction.Representable` excludes them, as a machine with 64-bit words does.
-/

namespace BitcoinScript

namespace Reader

/-- Values with `P` are read back from any string that starts with their writing. -/
def Reads {α : Type} (P : α → Prop) (read : Reader α) (write : α → Bytes) : Prop :=
  ∀ a, P a → ∀ rest, read (write a ++ rest) = some (a, rest)

namespace Reads

variable {α : Type} {P : α → Prop} {read : Reader α} {write : α → Bytes}

theorem append_inj (h : Reads P read write) {a b : α} {r s : Bytes} (ha : P a) (hb : P b)
    (heq : write a ++ r = write b ++ s) : a = b ∧ r = s := by
  have hread := h a ha r
  rw [heq, h b hb s] at hread
  simp only [Option.some.injEq, Prod.mk.injEq] at hread
  exact ⟨hread.1.symm, hread.2.symm⟩

theorem inj (h : Reads P read write) {a b : α} (ha : P a) (hb : P b) (heq : write a = write b) :
    a = b := by
  have happend : write a ++ [] = write b ++ [] := by rw [heq]
  exact (h.append_inj ha hb happend).1

/-- Writings that are not empty need no count. -/
theorem flatMap_inj (h : Reads P read write) (hne : ∀ a, write a ≠ []) {xs ys : List α}
    (hxs : ∀ x ∈ xs, P x) (hys : ∀ y ∈ ys, P y) (heq : xs.flatMap write = ys.flatMap write) :
    xs = ys := by
  have hnil : ∀ a : α, ∀ rest : Bytes, [] ≠ write a ++ rest := by
    intro a rest hempty
    exact hne a (List.append_eq_nil_iff.mp hempty.symm).1
  induction xs generalizing ys with
  | nil =>
      cases ys with
      | nil => rfl
      | cons y ys =>
          rw [List.flatMap_nil, List.flatMap_cons] at heq
          exact absurd heq (hnil y _)
  | cons x xs ih =>
      cases ys with
      | nil =>
          rw [List.flatMap_nil, List.flatMap_cons] at heq
          exact absurd heq.symm (hnil x _)
      | cons y ys =>
          rw [List.flatMap_cons, List.flatMap_cons] at heq
          obtain ⟨hfirst, hrest⟩ := h.append_inj (hxs x List.mem_cons_self)
            (hys y List.mem_cons_self) heq
          have htail := ih (fun z hz => hxs z (List.mem_cons_of_mem x hz))
            (fun z hz => hys z (List.mem_cons_of_mem y hz)) hrest
          rw [hfirst, htail]

end Reads

theorem bind_eq {α β : Type} {first : Reader α} {next : α → Reader β} {b rest : Bytes} {a : α}
    (h : first b = some (a, rest)) : (first >>= next) b = next a rest := by
  show (first b).bind (fun found => next found.1 found.2) = next a rest
  rw [h]
  rfl

/-! ## Numbers and counts -/

theorem bytes_append (b rest : Bytes) : bytes b.length (b ++ rest) = some (b, rest) := by
  simp only [bytes, List.take_left, List.drop_left, if_true]

theorem number_reads (width : Nat) :
    Reads (· < Bytes.span width) (number width) (Bytes.le width) := by
  intro n hn rest
  have hbytes := bytes_append (Bytes.le width n) rest
  rw [Bytes.length_le] at hbytes
  rw [number, bind_eq hbytes, Bytes.leValue_le_of_lt hn]
  rfl

theorem uint32_reads : Reads (fun _ => True) uint32 uint32Bytes := by
  intro n _ rest
  have hnumber := number_reads 4 n.toNat n.toNat_lt rest
  rw [uint32, uint32Bytes, bind_eq hnumber, UInt32.ofNat_toNat]
  rfl

theorem uint64_reads : Reads (fun _ => True) uint64 uint64Bytes := by
  intro n _ rest
  have hnumber := number_reads 8 n.toNat n.toNat_lt rest
  rw [uint64, uint64Bytes, bind_eq hnumber, UInt64.ofNat_toNat]
  rfl

theorem bytes32_reads : Reads (fun _ => True) bytes32 Bytes32.bytes := by
  intro b _ rest
  have hbytes := bytes_append b.bytes rest
  rw [b.length_eq] at hbytes
  simp only [bytes32, hbytes, b.length_eq, dif_pos]

/-- A marker is a number of one byte. -/
theorem number_marker (m : UInt8) (rest : Bytes) :
    number 1 (m :: rest) = some (m.toNat, rest) := by
  have hbytes : bytes 1 (m :: rest) = some ([m], rest) := bytes_append [m] rest
  rw [number, bind_eq hbytes]
  simp only [Bytes.leValue_cons, Bytes.leValue_nil, Nat.mul_zero, Nat.add_zero]
  rfl

theorem compact_reads : Reads (· ≤ Limits.wordMax) compact compactSize := by
  intro n hn rest
  have hword : n < Bytes.span 8 := Nat.lt_succ_of_le hn
  unfold compactSize
  split
  · rename_i hsmall
    have hbyte : n < Bytes.span 1 := Nat.lt_trans hsmall (by decide)
    rw [compact, bind_eq (number_reads 1 n hbyte rest), if_neg (by omega), if_neg (by omega),
      if_neg (by omega)]
    rfl
  · rename_i hsmall
    split
    · rename_i htwo
      have hlt : n < Bytes.span 2 := Nat.lt_succ_of_le htwo
      rw [compact, List.cons_append, bind_eq (number_marker 0xfd _), if_pos (by decide),
        bind_eq (number_reads 2 n hlt rest), decide_eq_true (by omega)]
      rfl
    · rename_i htwo
      split
      · rename_i hfour
        have hlt : n < Bytes.span 4 := Nat.lt_succ_of_le hfour
        rw [compact, List.cons_append, bind_eq (number_marker 0xfe _), if_neg (by decide),
          if_pos (by decide), bind_eq (number_reads 4 n hlt rest), decide_eq_true (by omega)]
        rfl
      · rename_i hfour
        rw [compact, List.cons_append, bind_eq (number_marker 0xff _), if_neg (by decide),
          if_neg (by decide), if_pos (by decide), bind_eq (number_reads 8 n hword rest),
          decide_eq_true (by omega)]
        rfl

theorem sized_reads : Reads (·.length ≤ Limits.wordMax) sized sizedBytes := by
  intro b hb rest
  rw [sized, sizedBytes, List.append_assoc, bind_eq (compact_reads _ hb _), bytes_append]

/-! ## Lists -/

theorem repeated_append {α : Type} {P : α → Prop} {item : Reader α} {write : α → Bytes}
    (h : Reads P item write) {xs : List α} (hxs : ∀ x ∈ xs, P x) (done : List α) (rest : Bytes) :
    repeated item xs.length done (xs.flatMap write ++ rest) = some (done.reverse ++ xs, rest) := by
  induction xs generalizing done with
  | nil =>
      rw [List.append_nil]
      rfl
  | cons x xs ih =>
      have hrest := ih (fun y hy => hxs y (List.mem_cons_of_mem x hy)) (x :: done)
      rw [List.length_cons, repeated, List.flatMap_cons, List.append_assoc,
        bind_eq (h x (hxs x List.mem_cons_self) _), hrest, List.reverse_cons, List.append_assoc]
      rfl

theorem list_reads {α : Type} {P : α → Prop} {item : Reader α} {write : α → Bytes}
    (h : Reads P item write) :
    Reads (fun xs : List α => xs.length ≤ Limits.wordMax ∧ ∀ x ∈ xs, P x) (list item)
      (counted write) := by
  rintro xs ⟨hlength, hxs⟩ rest
  rw [list, counted, List.append_assoc, bind_eq (compact_reads _ hlength _),
    repeated_append h hxs]
  rfl

/-! ## Transactions -/

theorem outPoint_reads :
    Reads (fun _ => True)
      (do
        let txid ← bytes32
        let index ← uint32
        return ⟨txid, index⟩)
      OutPoint.serialize := by
  intro o _ rest
  rw [OutPoint.serialize, List.append_assoc, bind_eq (bytes32_reads _ trivial _),
    bind_eq (uint32_reads _ trivial _)]
  rfl

theorem input_reads :
    Reads (fun i => i.script.length ≤ Limits.wordMax ∧ i.witness = []) input
      TxInput.serialize := by
  rintro ⟨⟨txid, index⟩, script, sequence, witness⟩ ⟨hscript, hwitness⟩ rest
  dsimp only at hscript hwitness
  subst hwitness
  simp only [TxInput.serialize, OutPoint.serialize, List.append_assoc]
  rw [input, bind_eq (bytes32_reads _ trivial _), bind_eq (uint32_reads _ trivial _),
    bind_eq (sized_reads _ hscript _), bind_eq (uint32_reads _ trivial _)]
  rfl

theorem output_reads :
    Reads (fun o => o.script.length ≤ Limits.wordMax) output TxOutput.serialize := by
  rintro ⟨value, script⟩ hscript rest
  simp only [TxOutput.serialize, List.append_assoc]
  rw [output, bind_eq (uint64_reads _ trivial _), bind_eq (sized_reads _ hscript _)]
  rfl

end Reader

/-- All counts and lengths of a transaction fit in a machine word. -/
structure Transaction.Representable (tx : Transaction) : Prop where
  inputs : tx.inputs.length ≤ Limits.wordMax
  unlocking : ∀ i ∈ tx.inputs, i.script.length ≤ Limits.wordMax
  outputs : tx.outputs.length ≤ Limits.wordMax
  locking : ∀ o ∈ tx.outputs, o.script.length ≤ Limits.wordMax

namespace Reader

theorem body_eq {inputs : List TxInput} {outputs : List TxOutput} (hne : inputs ≠ [])
    (hinputs : inputs.length ≤ Limits.wordMax ∧
      ∀ i ∈ inputs, i.script.length ≤ Limits.wordMax ∧ i.witness = [])
    (houtputs : outputs.length ≤ Limits.wordMax ∧
      ∀ o ∈ outputs, o.script.length ≤ Limits.wordMax) (rest : Bytes) :
    body (counted TxInput.serialize inputs ++ (counted TxOutput.serialize outputs ++ rest)) =
      some ((inputs, outputs), rest) := by
  have hsome : inputs.isEmpty = false := by simpa using hne
  rw [body, bind_eq (list_reads input_reads inputs hinputs _)]
  simp only [hsome, Bool.false_eq_true, if_false]
  rw [bind_eq (list_reads output_reads outputs houtputs _)]
  rfl

/-- A transaction without witnesses that spends something is read back. -/
theorem transaction_reads :
    Reads (fun tx => tx.Representable ∧ tx.inputs ≠ [] ∧ ∀ i ∈ tx.inputs, i.witness = [])
      transaction Transaction.serialize := by
  rintro tx ⟨htx, hne, hwitness⟩ rest
  have hinputs : ∀ i ∈ tx.inputs, i.script.length ≤ Limits.wordMax ∧ i.witness = [] :=
    fun i hi => ⟨htx.unlocking i hi, hwitness i hi⟩
  have hbody := body_eq hne ⟨htx.inputs, hinputs⟩ ⟨htx.outputs, htx.locking⟩
    (uint32Bytes tx.lockTime ++ rest)
  simp only [Transaction.serialize, List.append_assoc]
  rw [transaction, bind_eq (uint32_reads _ trivial _), bind_eq hbody]
  dsimp only
  rw [bind_eq (uint32_reads _ trivial _)]
  rfl

end Reader

end BitcoinScript
