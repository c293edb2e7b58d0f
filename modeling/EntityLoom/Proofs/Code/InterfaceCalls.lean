import EntityLoom.Proofs.ClassFile.Descriptor
import EntityLoom.Proofs.Code.Agreement
import EntityLoom.Proofs.Code.Typing
import EntityLoom.Proofs.Frame.Depth

/-!
# Argument counts of interface calls

A call through an interface says in one byte how many slots it takes off the stack: those of its
arguments, and one for the receiver.  `MethodDecl.assemble_interfaceCalls` says what that byte is in
assembled code.

The slots are summed in 16 bits.  The sum does not wrap, since control reaches every call: the
arguments stand on a recorded stack, and a stack of 65536 slots is refused
(`MethodDecl.Assembled.callSlots_le`).  Then the sum is cut to a byte, and nothing is refused there.
So the byte is the number of slots modulo 256, which is the number itself for up to 254 slots of
arguments.
-/

namespace EntityLoom

/-! ## The slots of a call -/

theorem VerificationType.slots_ofDescriptor {d : Descriptor} (h : d ≠ .void) :
    (ofDescriptor d).slots = d.slots := by
  cases d <;> first | rfl | exact absurd rfl h

namespace MethodDescriptor

/-- The slots that a call of a method with a receiver takes off the stack: those of the arguments,
and one for the receiver. -/
def callSlots (d : MethodDescriptor) : Nat :=
  total Descriptor.slots d.params + 1

variable {d : MethodDescriptor}

/-- The arguments take as many slots on the stack as in local variables. -/
theorem WellFormed.total_params (h : d.WellFormed) :
    total (fun p => (VerificationType.ofDescriptor p).slots) d.params =
      total Descriptor.slots d.params := by
  have hparams := h.params
  generalize d.params = params at hparams ⊢
  induction params with
  | nil => rfl
  | cons p params ih =>
    obtain ⟨⟨-, hvoid⟩, hrest⟩ := List.forall_mem_cons.1 hparams
    rw [total_cons, total_cons, VerificationType.slots_ofDescriptor hvoid, ih hrest]

/-- The 16 bit sum of a call is its number of slots where that fits. -/
theorem toNat_argSlots_add_one (h : d.callSlots < 0x10000) :
    (d.argSlots + 1).toNat = d.callSlots := by
  unfold callSlots at h ⊢
  unfold argSlots
  rw [UInt16.toNat_add, Bytes.toNat_length16 (by omega)]
  exact Nat.mod_eq_of_lt h

end MethodDescriptor

namespace MemberRef

theorem wellFormed_of_methodType {r : MemberRef} {d : MethodDescriptor}
    (h : r.methodType = .ok d) : d.WellFormed :=
  (MethodDescriptor.ofText_eq_ok.1 (methodType_eq_ok.1 h)).1

end MemberRef

/-! ## What a call finds on the stack -/

/-- A call that executes names a method descriptor and, if it has a receiver, finds its slots on the
stack. -/
theorem Frame.callSlots_le_of_after {thisClass : String} {index offset : Nat} {op : Opcode}
    {r : MemberRef} {f f' : Frame} (hop : op ≠ .invokestatic)
    (h : f.after thisClass index offset (.invoke op r) = .ok f') :
    ∃ d, r.methodType = .ok d ∧ d.callSlots ≤ f.stackSlots := by
  obtain ⟨u, hu⟩ := after_eq_ok.1 h
  change (executeInvoke thisClass index op r).run f = .ok (u, f') at hu
  unfold executeInvoke at hu
  obtain ⟨d, f₀, hlift, hu⟩ := run_bind_eq_ok.1 hu
  obtain ⟨hd, rfl⟩ := run_lift_eq_ok.1 hlift
  obtain ⟨_, f₁, hparams, hu⟩ := run_bind_eq_ok.1 hu
  obtain ⟨_, f₂, hreceiver, -⟩ := run_bind_eq_ok.1 hu
  have hparams := stackSlots_forM_popDeclared hparams
  have hreceiver := stackSlots_popReceiver hreceiver
  rw [total_reverse, (MemberRef.wellFormed_of_methodType hd).total_params] at hparams
  rw [if_neg hop] at hreceiver
  refine ⟨d, hd, ?_⟩
  unfold MethodDescriptor.callSlots
  omega

/-! ## The count byte -/

namespace Assembly

/-- The count byte is what is left of the number of slots in one byte. -/
theorem toNat_countByte {d : MethodDescriptor} (h : d.callSlots < 0x10000) :
    (countByte d).toNat = d.callSlots % 256 := by
  rw [countByte, UInt16.toNat_toUInt8, MethodDescriptor.toNat_argSlots_add_one h]

/-- A call through an interface is encoded with the count byte of its method, whatever that is. -/
theorem encode_interfaceCall {targetOffset? : Label → Option Nat} {r : MemberRef}
    {d : MethodDescriptor} (hd : r.methodType = .ok d) (operand : UInt16) (offset : Nat) :
    encode targetOffset? ⟨.invoke .invokeinterface r, operand, offset⟩ =
      .ok (Opcode.invokeinterface.byte :: (Bytes.ofWord16 operand ++ [countByte d, 0])) := by
  change (r.methodType >>= fun d => Except.ok _) = _
  rw [hd]
  rfl

end Assembly

/-! ## Assembled bodies -/

namespace MethodDecl

variable {m : MethodDecl} {thisClass : String} {withFrames : Bool} {p p' : Pool} {b : CodeBody}

namespace Assembled

variable (a : m.Assembled thisClass withFrames p b p')

/-- A call in an assembled body names a method descriptor, and its slots are within the limit of the
stack. -/
theorem callSlots_le {i : Nat} {op : Opcode} {r : MemberRef}
    (hins : m.body[i]? = some (.invoke op r)) (hop : op ≠ .invokestatic) :
    ∃ d, r.methodType = .ok d ∧ d.callSlots ≤ a.analysis.maxStack.toNat := by
  have hat := (a.getElem?_layout i).trans hins
  obtain ⟨f, f', hf, hf'⟩ := a.flows.executed i _ hat rfl
  have hlimit := (Layout.measured_of_analyze a.analysis_eq hf hf').1
  unfold Layout.executeAt at hf'
  rw [hat] at hf'
  obtain ⟨d, hd, hslots⟩ := Frame.callSlots_le_of_after hop hf'
  exact ⟨d, hd, Nat.le_trans hslots hlimit⟩

/-- The bytes of a call through an interface. -/
theorem code_of_interfaceCall {i : Nat} {r : MemberRef} {d : MethodDescriptor}
    (hins : m.body[i]? = some (.invoke .invokeinterface r)) (hd : r.methodType = .ok d) :
    ∃ operand back, b.code.drop (a.offset i) =
      Opcode.invokeinterface.byte :: (Bytes.ofWord16 operand ++ [Assembly.countByte d, 0]) ++
        back := by
  obtain ⟨⟨ins, operand, offset⟩, hq, rfl, -⟩ := a.exists_placed hins
  obtain ⟨bs, hbs, hencode⟩ := a.encoded hq
  rw [Assembly.encode_interfaceCall hd] at hencode
  obtain rfl := Except.ok.inj hencode
  obtain ⟨back, hcode⟩ := a.drop_code hbs
  exact ⟨operand, back, hcode⟩

end Assembled

/-- The count byte of each call through an interface in an assembled body.  The slots of the call
are summed without wrapping, since they are within the limit of the stack.  The byte holds their
number modulo 256, so it is the count of the call exactly if that is at most 255; calls of more
slots are assembled all the same. -/
theorem assemble_interfaceCalls (h : Succeeds (m.assemble thisClass withFrames) p b p') :
    ∃ a : m.Assembled thisClass withFrames p b p', ∀ i r,
      m.body[i]? = some (.invoke .invokeinterface r) →
      ∃ d operand count back, r.methodType = .ok d ∧
        b.code.drop (a.offset i) = Opcode.invokeinterface.byte ::
          (Bytes.ofWord16 operand ++ [count, 0]) ++ back ∧
        d.callSlots ≤ a.analysis.maxStack.toNat ∧ (d.argSlots + 1).toNat = d.callSlots ∧
        count.toNat = d.callSlots % 256 ∧ (count.toNat = d.callSlots ↔ d.callSlots ≤ 255) := by
  obtain ⟨a⟩ := nonempty_assembled h
  refine ⟨a, fun i r hins => ?_⟩
  obtain ⟨d, hd, hlimit⟩ := a.callSlots_le hins (by decide)
  obtain ⟨operand, back, hcode⟩ := a.code_of_interfaceCall hins hd
  have hsmall : d.callSlots < 0x10000 := Nat.lt_of_le_of_lt hlimit a.analysis.maxStack.toNat_lt
  have hcount := Assembly.toNat_countByte hsmall
  refine ⟨d, operand, Assembly.countByte d, back, hd, hcode, hlimit,
    MethodDescriptor.toNat_argSlots_add_one hsmall, hcount, ?_⟩
  rw [hcount]
  constructor <;> intro <;> omega

/-- 128 parameters of two slots. -/
def crowdedType : MethodDescriptor :=
  ⟨List.replicate 128 .long, .void⟩

/-- A reference to an interface method with these parameters. -/
def crowdedRef : MemberRef :=
  ⟨"A", "g", crowdedType.text⟩

/-- A method that calls it. -/
def crowded : MethodDecl where
  access := 0x0009
  name := "f"
  descriptor := "(J)V"
  body := .simple .aconstNull :: (List.replicate 128 (.var .lload 0) ++
    [.invoke .invokeinterface crowdedRef, .simple .returnVoid])

theorem methodType_crowdedRef : crowdedRef.methodType = .ok crowdedType :=
  MemberRef.methodType_eq_ok.2 (MethodDescriptor.ofText_text
    ⟨fun d hd => by rw [List.eq_of_mem_replicate hd]; decide, by decide⟩)

/-- The call takes 257 slots, and its count byte is 1. -/
theorem assemble_interfaceCalls_crowded :
    ∃ b p', Succeeds (crowded.assemble "A" false) .empty b p' ∧
      ∃ (a : crowded.Assembled "A" false .empty b p') (operand : UInt16) (back : Bytes),
        b.code.drop (a.offset 129) = 0xB9 :: (Bytes.ofWord16 operand ++ [1, 0]) ++ back ∧
        ∃ d, crowdedRef.methodType = .ok d ∧ d.callSlots = 257 := by
  obtain ⟨b, p', h⟩ := exists_succeeds (x := crowded.assemble "A" false) (s := .empty)
    (by decide +kernel)
  obtain ⟨a, hcalls⟩ := assemble_interfaceCalls h
  obtain ⟨d, operand, count, back, hd, hcode, -, -, hcount, -⟩ :=
    hcalls 129 crowdedRef (by decide +kernel)
  obtain rfl := Except.ok.inj (hd.symm.trans methodType_crowdedRef)
  have hslots : crowdedType.callSlots = 257 := by decide +kernel
  have hone : count = 1 := by
    rw [hslots] at hcount
    exact UInt8.toNat_inj.1 hcount
  rw [hone] at hcode
  exact ⟨b, p', h, a, operand, back, hcode, crowdedType, hd, hslots⟩

end MethodDecl

end EntityLoom
