import EntityLoom.Proofs.Weaving.Sites

/-!
# Calls in place of field accesses

The calls are put into the class one after the other.  `FieldAccess.getElem?_patchAll` says what all
of them do to a method: the content of each attribute is patched at the sites in it, and nothing else
changes.  Patching keeps the length and every byte outside the sites (`getElem?_patchInfo_of_clear`),
and since no two sites overlap, each site ends up with its call (`getElem?_patchInfo_of_mem`).
-/

namespace EntityLoom.FieldAccess

/-! ## One call -/

theorem length_replaceAt {offset : Nat} {bytes : Bytes} (new : Bytes)
    (h : offset + new.length ≤ bytes.length) : (replaceAt offset new bytes).length = bytes.length := by
  unfold replaceAt
  simp only [List.length_append, List.length_take, List.length_drop]
  omega

/-- The bytes after some of them were replaced. -/
theorem getElem?_replaceAt {offset : Nat} {new bytes : Bytes}
    (h : offset + new.length ≤ bytes.length) (k : Nat) :
    (replaceAt offset new bytes)[k]? =
      if offset ≤ k ∧ k < offset + new.length then new[k - offset]? else bytes[k]? := by
  have htake : (bytes.take offset).length = offset := by
    rw [List.length_take]
    omega
  unfold replaceAt
  split
  · next hk =>
    rw [List.append_assoc, List.getElem?_append_right (by omega), htake,
      List.getElem?_append_left (by omega)]
  · next hk =>
    by_cases hlt : k < offset
    · rw [List.append_assoc, List.getElem?_append_left (by omega), List.getElem?_take, if_pos hlt]
    · rw [List.getElem?_append_right (by rw [List.length_append]; omega), List.length_append, htake,
        List.getElem?_drop]
      congr 1
      omega

/-! ## All calls -/

/-- The call of the method in a slot of the pool. -/
def callBytes (slot : UInt16) : Bytes :=
  Opcode.invokevirtual.byte :: Bytes.ofWord16 slot

theorem length_callBytes (slot : UInt16) : (callBytes slot).length = 3 := rfl

/-- Puts calls into the methods of a class, one after the other. -/
def patchAll (calls : List (Site × UInt16)) (methods : List Member) : List Member :=
  calls.foldl (fun ms x => patch ms x.1 x.2) methods

/-- Puts the calls whose sites lie in the attribute at place `j` of the method at place `i` into the
content of that attribute. -/
def patchInfo (i j : Nat) (calls : List (Site × UInt16)) (info : Bytes) : Bytes :=
  calls.foldl (fun bs x =>
    if x.1.method = i ∧ x.1.codeAttribute = j then replaceAt x.1.offset (callBytes x.2) bs
    else bs) info

/-- A method with calls put in. -/
def patchMember (i : Nat) (calls : List (Site × UInt16)) (m : Member) : Member :=
  { m with attributes := m.attributes.mapIdx fun j a => { a with info := patchInfo i j calls a.info } }

theorem patchMember_nil (i : Nat) (m : Member) : patchMember i [] m = m := by
  have hid : ∀ as : List Attribute,
      (as.mapIdx fun j a => ({ a with info := patchInfo i j [] a.info } : Attribute)) = as := by
    intro as
    refine List.ext_getElem? fun k => ?_
    rw [List.getElem?_mapIdx]
    cases as[k]? <;> rfl
  unfold patchMember
  rw [hid]

theorem patchMember_cons (i : Nat) (x : Site × UInt16) (calls : List (Site × UInt16)) (m : Member) :
    patchMember i (x :: calls) m =
      patchMember i calls (if x.1.method = i then
        { m with attributes := m.attributes.modify x.1.codeAttribute fun a =>
          { a with info := replaceAt x.1.offset (callBytes x.2) a.info } }
      else m) := by
  by_cases hi : x.1.method = i
  · rw [if_pos hi]
    unfold patchMember
    congr 1
    refine List.ext_getElem? fun k => ?_
    rw [List.getElem?_mapIdx, List.getElem?_mapIdx, List.getElem?_modify]
    cases m.attributes[k]? with
    | none => rfl
    | some a =>
      by_cases hj : x.1.codeAttribute = k
      · simp [patchInfo, hi, hj]
      · simp [patchInfo, hi, hj]
  · rw [if_neg hi]
    unfold patchMember patchInfo
    simp [hi]

/-- What all calls together do to a method. -/
theorem getElem?_patchAll (calls : List (Site × UInt16)) (methods : List Member) (i : Nat) :
    (patchAll calls methods)[i]? = (methods[i]?).map (patchMember i calls) := by
  induction calls generalizing methods with
  | nil =>
    have hid : patchMember i [] = id := funext (patchMember_nil i)
    rw [hid, Option.map_id]
    rfl
  | cons x calls ih =>
    have hstep : patchAll (x :: calls) methods = patchAll calls (patch methods x.1 x.2) := rfl
    rw [hstep, ih]
    unfold patch
    rw [List.getElem?_modify]
    cases methods[i]? with
    | none => rfl
    | some m =>
      refine congrArg some ?_
      rw [patchMember_cons]
      dsimp only [id]
      split <;> rfl

theorem length_patchAll (calls : List (Site × UInt16)) (methods : List Member) :
    (patchAll calls methods).length = methods.length := by
  induction calls generalizing methods with
  | nil => rfl
  | cons x calls ih =>
    have hstep : patchAll (x :: calls) methods = patchAll calls (patch methods x.1 x.2) := rfl
    rw [hstep, ih, patch, List.length_modify]

/-! ## The bytes of an attribute -/

section

variable {i j : Nat} {calls : List (Site × UInt16)} {info : Bytes}

/-- The site lies in the attribute at place `j` of the method at place `i`. -/
def Site.In (s : Site) (i j : Nat) : Prop := s.method = i ∧ s.codeAttribute = j

theorem patchInfo_cons (x : Site × UInt16) :
    patchInfo i j (x :: calls) info =
      patchInfo i j calls
        (if x.1.method = i ∧ x.1.codeAttribute = j then replaceAt x.1.offset (callBytes x.2) info
        else info) := rfl

/-- The sites of an attribute lie within its content. -/
def Within (i j : Nat) (calls : List (Site × UInt16)) (info : Bytes) : Prop :=
  ∀ x ∈ calls, x.1.In i j → x.1.offset + 3 ≤ info.length

theorem length_patchInfo (h : Within i j calls info) :
    (patchInfo i j calls info).length = info.length := by
  induction calls generalizing info with
  | nil => rfl
  | cons x calls ih =>
    rw [patchInfo_cons]
    have hrest := fun y hy => h y (List.mem_cons_of_mem x hy)
    split
    · next hx =>
      have hlen := length_replaceAt (callBytes x.2) (h x List.mem_cons_self hx)
      rw [ih fun y hy hin => hlen ▸ hrest y hy hin, hlen]
    · exact ih hrest

/-- A byte outside the sites stays as it is. -/
theorem getElem?_patchInfo_of_clear (h : Within i j calls info) {k : Nat}
    (hk : ∀ x ∈ calls, x.1.In i j → ¬(x.1.offset ≤ k ∧ k < x.1.offset + 3)) :
    (patchInfo i j calls info)[k]? = info[k]? := by
  induction calls generalizing info with
  | nil => rfl
  | cons x calls ih =>
    rw [patchInfo_cons]
    have hrest := fun y hy => h y (List.mem_cons_of_mem x hy)
    have hkrest := fun y hy => hk y (List.mem_cons_of_mem x hy)
    split
    · next hx =>
      have hin := h x List.mem_cons_self hx
      have hlen := length_replaceAt (callBytes x.2) hin
      rw [ih (fun y hy hy' => hlen ▸ hrest y hy hy') hkrest, getElem?_replaceAt hin,
        length_callBytes, if_neg (hk x List.mem_cons_self hx)]
    · exact ih hrest hkrest

/-- Each site ends up with its call. -/
theorem getElem?_patchInfo_of_mem (h : Within i j calls info)
    (hcalls : calls.Pairwise fun x y => Before x.1 y.1) {x : Site × UInt16} (hx : x ∈ calls)
    (hin : x.1.In i j) {d : Nat} (hd : d < 3) :
    (patchInfo i j calls info)[x.1.offset + d]? = (callBytes x.2)[d]? := by
  induction calls generalizing info with
  | nil => cases hx
  | cons y calls ih =>
    rw [patchInfo_cons]
    obtain ⟨hfirst, hpairwise⟩ := List.pairwise_cons.1 hcalls
    have hrest := fun z hz => h z (List.mem_cons_of_mem y hz)
    rcases List.mem_cons.1 hx with rfl | hx
    · -- The call was put in first, and the later sites lie behind it.
      rw [if_pos (show x.1.method = i ∧ x.1.codeAttribute = j from hin)]
      have hbound := h x List.mem_cons_self hin
      have hlen := length_replaceAt (callBytes x.2) hbound
      rw [getElem?_patchInfo_of_clear, getElem?_replaceAt hbound, length_callBytes,
        if_pos (by omega), Nat.add_sub_cancel_left]
      · exact fun z hz hz' => hlen ▸ hrest z hz hz'
      · intro z hz hz'
        rcases hfirst z hz with hlt | ⟨-, -, hle⟩
        · rw [hin.1, hz'.1] at hlt
          omega
        · omega
    · split
      · next hy =>
        have hlen := length_replaceAt (callBytes y.2) (h y List.mem_cons_self hy)
        exact ih (fun z hz hz' => hlen ▸ hrest z hz hz') hpairwise hx
      · exact ih hrest hpairwise hx

end

end EntityLoom.FieldAccess
