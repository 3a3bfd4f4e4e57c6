import Plasma.Contract.Run

/-!
# The layout of a transaction

The contract reads a transaction as a flat list of eleven fields.  Whatever
lies behind the bytes in memory, a list in this layout is read back field by
field, and an exit that is started with it records the owner and the amount of
the output that the last four digits of the position name.
-/

namespace Plasma.Contract

open Plasma.Core Plasma.Lib Plasma.Lib.Rlp

namespace RLP

variable {memory : Bytes} {memPtr : Nat}

theorem toAddress_encodeString {payload : Bytes}
    (length : payload.length = 20)
    (held : Holds memory memPtr (encodeString payload)) :
    toAddress memory ⟨(encodeString payload).length, memPtr⟩ =
      some (BitVec.ofNat 160 (fromBigEndian payload)) := by
  have headed : encodeString payload = header 128 20 ++ payload := by
    rcases encodeString_cases payload with ⟨byte, one, _, _⟩ | headed
    · rw [one] at length
      cases length
    · rw [headed, length]
  rw [headed] at held ⊢
  have size : (header 128 20).length = 1 := rfl
  have content := held.right
  rw [size] at content
  have value := content.mload_div (by omega)
  rw [length] at value
  rw [toAddress, List.length_append, size, length, if_pos rfl]
  exact congrArg (fun number => some (BitVec.ofNat 160 number)) value

/-- The items that are collected point to the encoded strings. -/
theorem collectItems_getElem? {payloads : List Bytes}
    (bound : ∀ payload ∈ payloads, payload.length < 256 ^ 8)
    (held : Holds memory memPtr (payloads.map encodeString).flatten)
    {index : Nat} {payload : Bytes} (read : payloads[index]? = some payload) :
    ∃ itemPtr, (collectItems memory payloads.length memPtr)[index]? =
        some ⟨(encodeString payload).length, itemPtr⟩ ∧
      Holds memory itemPtr (encodeString payload) := by
  induction payloads generalizing memPtr index with
  | nil => cases read
  | cons first payloads induction =>
      rw [List.map_cons, List.flatten_cons] at held
      have size := itemLength_encodeString (bound first List.mem_cons_self)
        held.left
      rw [List.length_cons, collectItems, size]
      cases index with
      | zero =>
          cases read
          exact ⟨memPtr, rfl, held.left⟩
      | succ index =>
          exact induction
            (fun other member => bound other (List.mem_cons_of_mem _ member))
            held.right read

end RLP

/-- The fields in the order of the list. -/
structure FlatTx where
  blknum1 : Word
  txindex1 : Word
  oindex1 : Word
  blknum2 : Word
  txindex2 : Word
  oindex2 : Word
  token : Address
  newowner1 : Address
  amount1 : Word
  newowner2 : Address
  amount2 : Word
deriving DecidableEq, Repr

namespace FlatTx

def payloads (tx : FlatTx) : List Bytes :=
  [minimalBytes tx.blknum1.toNat, minimalBytes tx.txindex1.toNat,
    minimalBytes tx.oindex1.toNat, minimalBytes tx.blknum2.toNat,
    minimalBytes tx.txindex2.toNat, minimalBytes tx.oindex2.toNat,
    addressBytes tx.token, addressBytes tx.newowner1,
    minimalBytes tx.amount1.toNat, addressBytes tx.newowner2,
    minimalBytes tx.amount2.toNat]

def encode (tx : FlatTx) : Bytes :=
  encodeList (tx.payloads.map encodeString)

/-- The owner and the amount of an output. -/
def output (tx : FlatTx) : Nat → Option (Address × Word)
  | 0 => some (tx.newowner1, tx.amount1)
  | 1 => some (tx.newowner2, tx.amount2)
  | _ => none

theorem length_minimalBytes_le (word : Word) :
    (minimalBytes word.toNat).length ≤ 32 := by
  rw [length_minimalBytes]
  apply byteWidth_le
  exact word.isLt.trans_eq (by norm_num)

theorem length_payload_le (tx : FlatTx) :
    ∀ payload ∈ tx.payloads, payload.length ≤ 32 := by
  have number := length_minimalBytes_le
  have address : ∀ address, (addressBytes address).length ≤ 32 := by
    intro address
    rw [length_addressBytes]
    decide
  simp only [payloads, List.forall_mem_cons]
  exact ⟨number _, number _, number _, number _, number _, number _,
    address _, address _, number _, address _, number _,
    List.forall_mem_nil _⟩

theorem length_encodeString_le {payload : Bytes} (short : payload.length ≤ 32) :
    (encodeString payload).length ≤ 33 := by
  rcases encodeString_cases payload with ⟨byte, _, _, single⟩ | headed
  · rw [single]
    exact Nat.le_add_left _ _
  · rw [headed, List.length_append, header, if_pos (by omega),
      List.length_singleton]
    omega

theorem length_flatten_lt (tx : FlatTx) :
    (tx.payloads.map encodeString).flatten.length < 256 ^ 8 := by
  have total : ∀ payloads : List Bytes,
      (∀ payload ∈ payloads, payload.length ≤ 32) →
        (payloads.map encodeString).flatten.length ≤ 33 * payloads.length := by
    intro payloads short
    induction payloads with
    | nil => exact Nat.le_refl _
    | cons payload payloads induction =>
        have first := length_encodeString_le
          (short payload List.mem_cons_self)
        have later := induction
          (fun other member => short other (List.mem_cons_of_mem _ member))
        rw [List.map_cons, List.flatten_cons, List.length_append,
          List.length_cons]
        omega
  exact (total tx.payloads tx.length_payload_le).trans_lt (by
    simp [payloads])

/-- The items of an encoded transaction, wherever its bytes lie. -/
theorem toList_encode (tx : FlatTx) (rest : Bytes) :
    ∃ txList, RLP.toList (tx.encode ++ rest) (RLP.toRlpItem tx.encode) =
        some txList ∧ txList.length = 11 ∧
      ∀ (index : Nat) payload, tx.payloads[index]? = some payload →
        ∃ itemPtr, txList[index]? =
            some ⟨(encodeString payload).length, itemPtr⟩ ∧
          Holds (tx.encode ++ rest) itemPtr (encodeString payload) := by
  have bound : ∀ payload ∈ tx.payloads, payload.length < 256 ^ 8 := by
    intro payload member
    exact (tx.length_payload_le payload member).trans_lt (by norm_num)
  have items : ∀ item ∈ tx.payloads.map encodeString, RLP.IsItem item := by
    intro item member
    obtain ⟨payload, inside, rfl⟩ := List.mem_map.mp member
    exact RLP.isItem_encodeString (bound payload inside)
  have held : Holds (tx.encode ++ rest) 0 tx.encode := ⟨rest, rfl⟩
  refine ⟨_, RLP.toList_encodeList rest items tx.length_flatten_lt, ?_, ?_⟩
  · rw [RLP.length_collectItems]
    rfl
  · intro index payload read
    have content := held.right
    rw [Nat.zero_add] at content
    rw [List.length_map]
    exact RLP.collectItems_getElem? bound content read

theorem toUint_item {memory : Bytes} {itemPtr : Nat} {word : Word}
    (held : Holds memory itemPtr (encodeString (minimalBytes word.toNat))) :
    RLP.toUint memory
        ⟨(encodeString (minimalBytes word.toNat)).length, itemPtr⟩ = word := by
  rw [RLP.toUint_encodeString (length_minimalBytes_le word) held,
    fromBigEndian_minimalBytes, BitVec.ofNat_toNat, BitVec.setWidth_eq]

theorem toAddress_item {memory : Bytes} {itemPtr : Nat} {address : Address}
    (held : Holds memory itemPtr (encodeString (addressBytes address))) :
    RLP.toAddress memory
        ⟨(encodeString (addressBytes address)).length, itemPtr⟩ =
      some address := by
  have fits : address.toNat < 256 ^ 20 := address.isLt.trans_eq (by norm_num)
  rw [RLP.toAddress_encodeString (length_addressBytes address) held,
    addressBytes, fromBigEndian_bigEndian fits, BitVec.ofNat_toNat,
    BitVec.setWidth_eq]

/-- A transaction in the layout is read back, whatever follows it in memory;
an output that it does not have reverts. -/
theorem createExitingTx_encode (tx : FlatTx) (rest : Bytes) {oindex : Word}
    (small : oindex.toNat < 10000) :
    PlasmaRLP.createExitingTx tx.encode rest oindex =
      (tx.output oindex.toNat).map fun output =>
        ⟨output.1, tx.token, output.2, tx.blknum1 * tx.blknum2⟩ := by
  obtain ⟨txList, parsed, length, items⟩ := tx.toList_encode rest
  obtain ⟨firstPtr, first, firstHeld⟩ := items 0 _ rfl
  obtain ⟨secondPtr, second, secondHeld⟩ := items 3 _ rfl
  obtain ⟨tokenPtr, token, tokenHeld⟩ := items 6 _ rfl
  have owner : (7 + 2 * oindex).toNat = 7 + 2 * oindex.toNat := by
    bv_omega
  have amount : (8 + 2 * oindex).toNat = 8 + 2 * oindex.toNat := by
    bv_omega
  rw [PlasmaRLP.createExitingTx, parsed, owner, amount]
  simp only [Option.bind_eq_bind, Option.bind_some, first, second, token,
    toAddress_item tokenHeld, toUint_item firstHeld, toUint_item secondHeld,
    Option.pure_def]
  match which : oindex.toNat with
  | 0 =>
      obtain ⟨ownerPtr, owner, ownerHeld⟩ := items 7 _ rfl
      obtain ⟨amountPtr, amount, amountHeld⟩ := items 8 _ rfl
      simp only [Nat.mul_zero, Nat.add_zero, owner, amount, Option.bind_some,
        toAddress_item ownerHeld, toUint_item amountHeld]
      rfl
  | 1 =>
      obtain ⟨ownerPtr, owner, ownerHeld⟩ := items 9 _ rfl
      obtain ⟨amountPtr, amount, amountHeld⟩ := items 10 _ rfl
      simp only [Nat.mul_one, Nat.reduceAdd, owner, amount, Option.bind_some,
        toAddress_item ownerHeld, toUint_item amountHeld]
      rfl
  | index + 2 =>
      have missing : txList[7 + 2 * (index + 2)]? = none :=
        List.getElem?_eq_none (by omega)
      rw [missing]
      rfl

end FlatTx

/-- The last four digits of a position. -/
theorem oindex_toNat (utxoPos : Word) :
    (utxoPos - utxoPos / 1000000000 * 1000000000 -
      utxoPos % 1000000000 / 10000 * 10000).toNat =
        utxoPos.toNat % 10000 := by
  have bound := utxoPos.isLt
  have blocks : (1000000000 : Word).toNat = 1000000000 := rfl
  have leaves : (10000 : Word).toNat = 10000 := rfl
  have block : (utxoPos / 1000000000 * 1000000000).toNat =
      utxoPos.toNat / 1000000000 * 1000000000 := by
    rw [BitVec.toNat_mul, BitVec.toNat_udiv, blocks]
    exact Nat.mod_eq_of_lt (by omega)
  have leaf : (utxoPos % 1000000000 / 10000 * 10000).toNat =
      utxoPos.toNat % 1000000000 / 10000 * 10000 := by
    rw [BitVec.toNat_mul, BitVec.toNat_udiv, BitVec.toNat_umod, blocks, leaves]
    exact Nat.mod_eq_of_lt (by omega)
  rw [BitVec.toNat_sub_of_le, BitVec.toNat_sub_of_le, block, leaf]
  · omega
  · rw [BitVec.le_def, block]
    omega
  · rw [BitVec.le_def, BitVec.toNat_sub_of_le, block, leaf]
    · omega
    · rw [BitVec.le_def, block]
      omega

namespace RootChain

variable {c : Crypto} {s : RootChain} {m : Message} {utxoPos : Word}

/-- A started exit records the output of its sender. -/
theorem startExit_records {tx : FlatTx} {proof sigs rest : Bytes}
    (call : m.call = .startExit utxoPos tx.encode proof sigs rest)
    (succeeds : (perform c s m).isSome = true) :
    ∃ amount, tx.output (utxoPos.toNat % 10000) = some (m.sender, amount) ∧
      amount ≠ 0 ∧
      (step c s m).1.exits utxoPos = ⟨m.sender, 0, amount⟩ := by
  obtain ⟨⟨next, effects⟩, performed⟩ := Option.isSome_iff_exists.mp succeeds
  have taken : (step c s m).1 = next := by
    rw [step, performed]
    rfl
  simp only [perform, call, startExit, Option.bind_eq_bind,
    Option.bind_eq_some_iff, require_eq_some, Option.pure_def,
    Option.some.injEq, Prod.mk.injEq] at performed
  obtain ⟨_, _, exitingTx, created, _, sender, _, _, _, _, _, _, _, _, _, _,
    _, added, rfl, _⟩ := performed
  obtain ⟨positive, _, stored⟩ := addExitToQueue_eq_some added
  have index := oindex_toNat utxoPos
  rw [FlatTx.createExitingTx_encode tx rest (by
    rw [index]
    exact Nat.mod_lt _ (by decide)), index, Option.map_eq_some_iff] at created
  obtain ⟨⟨owner, amount⟩, output, rfl⟩ := created
  refine ⟨amount, ?_, positive, ?_⟩
  · rw [output, sender]
  · rw [taken, stored, sender]
    exact Function.update_self _ _ _

/-- What a started exit has stored, and what was paid for it since. -/
structure PaysOutput (utxoPos : Word) (owner : Address) (amount : Word)
    (past : List Effect) (s : RootChain) : Prop where
  storedAmount : (s.exits utxoPos).amount = amount
  storedOwner : (s.exits utxoPos).owner = owner ∨ (s.exits utxoPos).owner = 0
  payouts : ∀ payee paid time, .removed utxoPos payee paid time ∈ past →
    paid = amount ∧ (payee = owner ∨ payee = 0)

namespace PaysOutput

variable {owner : Address} {amount : Word} {past : List Effect}
  {next : RootChain}

/-- Another exit is changed, or the owner of this one is cleared. -/
theorem update (holds : PaysOutput utxoPos owner amount past s)
    {position : Word} {e : Exit}
    (change : position = utxoPos → e.amount = amount ∧ e.owner = 0)
    (exits : next.exits = Function.update s.exits position e) :
    PaysOutput utxoPos owner amount past next := by
  by_cases same : position = utxoPos
  · obtain ⟨kept, cleared⟩ := change same
    have own : next.exits utxoPos = e := by
      rw [exits, same, Function.update_self]
    refine ⟨?_, ?_, holds.payouts⟩
    · rw [own, kept]
    · rw [own]
      exact .inr cleared
  · have other : next.exits utxoPos = s.exits utxoPos := by
      rw [exits, Function.update_of_ne (Ne.symm same)]
    refine ⟨?_, ?_, holds.payouts⟩
    · rw [other, holds.storedAmount]
    · rw [other]
      exact holds.storedOwner

theorem append (holds : PaysOutput utxoPos owner amount past s)
    {effects : List Effect}
    (payouts : ∀ payee paid time, .removed utxoPos payee paid time ∈ effects →
      paid = amount ∧ (payee = owner ∨ payee = 0)) :
    PaysOutput utxoPos owner amount (past ++ effects) s := by
  refine ⟨holds.storedAmount, holds.storedOwner, ?_⟩
  intro payee paid time member
  rcases List.mem_append.mp member with old | new
  · exact holds.payouts payee paid time old
  · exact payouts payee paid time new

theorem acts (holds : PaysOutput utxoPos owner amount past s)
    (positive : amount ≠ 0) {inputs : List Bytes} {effect : Effect}
    (act : Acts c m s inputs effect next) :
    PaysOutput utxoPos owner amount
      (past ++ (inputs.map Effect.hashed ++ [effect])) next := by
  have silent : ∀ payee paid time,
      .removed utxoPos payee paid time ∉
        inputs.map Effect.hashed ++ [effect] := by
    intro payee paid time member
    rcases List.mem_append.mp member with hashed | last
    · obtain ⟨_, _, impossible⟩ := List.mem_map.mp hashed
      cases impossible
    · cases List.mem_singleton.mp last
      cases act
  have kept : PaysOutput utxoPos owner amount past next := by
    cases act with
    | submitted => exact ⟨holds.storedAmount, holds.storedOwner, holds.payouts⟩
    | deposited => exact ⟨holds.storedAmount, holds.storedOwner, holds.payouts⟩
    | exitStarted source _ fresh =>
        refine holds.update ?_ rfl
        rintro rfl
        exact absurd (holds.storedAmount.symm.trans fresh) positive
    | challenged call =>
        refine holds.update ?_ rfl
        rintro rfl
        exact ⟨holds.storedAmount, rfl⟩
  exact kept.append fun payee paid time member =>
    absurd member (silent payee paid time)

theorem removes (holds : PaysOutput utxoPos owner amount past s)
    {effect : Effect} (removed : Removes m s effect next) :
    PaysOutput utxoPos owner amount (past ++ [effect]) next := by
  cases removed with
  | round front mature funded deleted =>
      refine (holds.append ?_).update ?_ rfl
      · intro payee paid time member
        cases List.mem_singleton.mp member
        exact ⟨holds.storedAmount, holds.storedOwner⟩
      · rintro rfl
        exact ⟨holds.storedAmount, rfl⟩

end PaysOutput

/-- An exit pays the output that its position names in the transaction, to the
owner of the output or, once it is cleared, to nobody; this holds however the
run goes on. -/
theorem exit_pays_output {tx : FlatTx} {proof sigs rest : Bytes}
    (call : m.call = .startExit utxoPos tx.encode proof sigs rest)
    (succeeds : (perform c s m).isSome = true) :
    ∃ amount, tx.output (utxoPos.toNat % 10000) = some (m.sender, amount) ∧
      amount ≠ 0 ∧
      ∀ messages payee paid time,
        .removed utxoPos payee paid time ∈
            (execute (step c) (step c s m).1 messages).2 →
          paid = amount ∧ (payee = m.sender ∨ payee = 0) := by
  obtain ⟨amount, output, positive, stored⟩ :=
    startExit_records call succeeds
  refine ⟨amount, output, positive, ?_⟩
  intro messages
  have meets : StepsMeet (step c) (fun _ _ => True) (step c s m).1 messages :=
    stepsMeet_of_forall (fun _ _ _ => trivial) _
  have pays : PaysOutput utxoPos m.sender amount
      (execute (step c) (step c s m).1 messages).2
      (execute (step c) (step c s m).1 messages).1 := by
    refine run_induction (PaysOutput utxoPos m.sender amount) ?_ ?_ ?_ meets
    · intro past s n inputs effect next holds _ act
      exact holds.acts positive act
    · intro past s n effect next holds removed
      exact holds.removes removed
    · refine ⟨?_, ?_, ?_⟩
      · rw [stored]
      · rw [stored]
        exact .inl rfl
      · intro payee paid time member
        cases member
  exact pays.payouts

end RootChain

namespace Sample

def spendFields : FlatTx :=
  { blknum1 := 1, txindex1 := 0, oindex1 := 0
    blknum2 := 0, txindex2 := 0, oindex2 := 0
    token := 0
    newowner1 := bob, amount1 := 5
    newowner2 := 0, amount2 := 0 }

end Sample

open RootChain Sample in
/-- The recipient of the sample exits the first output of the transaction and
is paid. -/
theorem recipient_exit_pays :
    ∃ s, s = (execute (step crypto) (new alice)
        [depositMessage alice 5, submitMessage]).1 ∧
      (∃ amount, spendFields.output 0 = some (bob, amount) ∧ amount ≠ 0 ∧
        ∀ messages payee paid time,
          .removed 1000000000000 payee paid time ∈
              (execute (step crypto)
                (step crypto s (utxoExit 1000000000000)).1 messages).2 →
            paid = amount ∧ (payee = bob ∨ payee = 0)) ∧
      .removed 1000000000000 bob 5 (start + weeks 3) ∈
        (execute (step crypto)
          (step crypto s (utxoExit 1000000000000)).1 [finalize]).2 := by
  have bytes : spendBytes = spendFields.encode := by decide +kernel
  have call : (utxoExit 1000000000000).call =
      .startExit 1000000000000 spendFields.encode proof
        (spendSigs ++ confirmationSig) [] := by
    rw [← bytes]
    rfl
  refine ⟨_, rfl, exit_pays_output call ?_, ?_⟩
  · decide +kernel
  · decide +kernel

end Plasma.Contract
