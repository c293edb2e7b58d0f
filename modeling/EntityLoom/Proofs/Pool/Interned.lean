import EntityLoom.Proofs.Pool.WellFormed

/-!
# Reading back what was interned

Any sequence of requests to an empty pool, all of which are granted, leaves a well-formed pool that
is not too large.  Requests are refused when the slots run out, but not for the size of a text, so
`Interning.read_back_iff` says that the pool is read back from its written form exactly if every text
fits its length field.
-/

namespace EntityLoom

open Reader (Reads)

/-! ## Texts of a pool -/

namespace Pool

variable {p q : Pool} {c : Constant} {t : Bytes}

/-- A slot holds the text with the given bytes. -/
def HasText (p : Pool) (t : Bytes) : Prop := some (.utf8 t) ∈ p.slots.toList

theorem fits_iff : p.Fits ↔ ∀ t, p.HasText t → t.length < 0x10000 := by
  refine ⟨fun h t ht => h _ ht, fun h c hc => ?_⟩
  cases c with
  | utf8 t => exact h t hc
  | _ => trivial

theorem not_hasText_empty : ¬empty.HasText t := by
  simp [HasText, empty]

theorem hasText_append : (p.append c).HasText t ↔ p.HasText t ∨ c = .utf8 t := by
  unfold HasText
  rw [slots_append, List.mem_append, slotsOf]
  split <;> simp [eq_comm]

theorem hasText_of_get? {i : UInt16} (h : p.get? i = some (.utf8 t)) : p.HasText t := by
  rw [get?_eq, Option.join_eq_some_iff] at h
  exact List.mem_of_getElem? h

/-- A pool that is read back with the same slots has texts that fit: none was cut when its length was
written. -/
theorem fits_of_read {data : Bytes} {e : Cursor} (h : read.run (.start data) = .ok (q, e))
    (hslots : q.slots = p.slots) : p.Fits := by
  obtain ⟨n, hn⟩ := yields_built h
  intro c hc
  exact hn.fits c (hslots ▸ hc)

end Pool

namespace Interning

variable {α β : Type} {p : Pool} {ts us : List Bytes}

/-! ## Texts that a step brings -/

/-- From a built pool the step extends the pool, and the texts it brings are those of the list. -/
def Brings (step : Interning α) (ts : List Bytes) : Prop :=
  ∀ ⦃p a p'⦄, p.Built → Succeeds step p a p' →
    p.Extends p' ∧ ∀ t, p'.HasText t ↔ p.HasText t ∨ t ∈ ts

theorem Brings.pure (a : α) : Brings (pure a) [] := by
  intro p b p' _ hs
  obtain ⟨-, rfl⟩ := succeeds_pure.1 hs
  exact ⟨.refl, by simp⟩

theorem Brings.bind {step : Interning α} {next : α → Interning β} (h : Brings step ts)
    (hnext : ∀ a, Brings (next a) us) : Brings (step >>= next) (ts ++ us) := by
  intro p b p'' hp hs
  obtain ⟨a, p', ha, hb⟩ := succeeds_bind.1 hs
  obtain ⟨hext, htexts⟩ := h hp ha
  obtain ⟨hext', htexts'⟩ := hnext a (hext.built hp) hb
  refine ⟨hext.trans hext', fun t => ?_⟩
  rw [htexts', htexts, List.mem_append, or_assoc]

theorem Brings.mapM {step : α → Interning β} {texts : α → List Bytes}
    (h : ∀ x, Brings (step x) (texts x)) (xs : List α) :
    Brings (xs.mapM step) (xs.flatMap texts) := by
  induction xs with
  | nil =>
    rw [List.mapM_nil]
    exact .pure []
  | cons x xs ih =>
    rw [List.mapM_cons, List.flatMap_cons]
    simpa using (h x).bind fun y => ih.bind fun ys => Brings.pure (y :: ys)

/-- The text of a constant. -/
def textOf : Constant → List Bytes
  | .utf8 t => [t]
  | _ => []

theorem mem_textOf {c : Constant} {t : Bytes} : t ∈ textOf c ↔ c = .utf8 t := by
  cases c <;> simp [textOf, eq_comm]

theorem constant_brings (c : Constant) : Brings (constant c) (textOf c) := by
  intro p i p' hp hs
  rcases succeeds_constant.1 hs with ⟨hi, rfl⟩ | ⟨-, hroom, -, rfl⟩
  · refine ⟨.refl, fun t => ⟨.inl, ?_⟩⟩
    rintro (ht | ht)
    · exact ht
    · obtain rfl := mem_textOf.1 ht
      exact Pool.hasText_of_get? (hp.get?_of_firstSlot hi)
  · refine ⟨.append .refl c hroom, fun t => ?_⟩
    rw [Pool.hasText_append, mem_textOf]

/-! ## Requests -/

/-- What a pool may be asked for. -/
inductive Request
  | utf8 (text : String)
  | classRef (name : String)
  | string (text : String)
  | nameAndType (name descriptor : String)
  | fieldRef (owner name descriptor : String)
  | methodRef (owner name descriptor : String) (ofInterface : Bool)
  | constant (c : Constant)

/-- The step that answers a request with a slot. -/
def Request.run : Request → Interning UInt16
  | utf8 text => Interning.utf8 text
  | classRef name => Interning.classRef name
  | string text => Interning.string text
  | nameAndType name descriptor => Interning.nameAndType name descriptor
  | fieldRef owner name descriptor => Interning.fieldRef owner name descriptor
  | methodRef owner name descriptor ofInterface =>
    Interning.methodRef owner name descriptor ofInterface
  | constant c => Interning.constant c

/-- The texts that a request brings into the pool, as they are stored. -/
def Request.texts : Request → List Bytes
  | utf8 text | classRef text | string text => [Text.ModifiedUtf8.encode text]
  | nameAndType name descriptor => [name, descriptor].map Text.ModifiedUtf8.encode
  | fieldRef owner name descriptor | methodRef owner name descriptor _ =>
    [owner, name, descriptor].map Text.ModifiedUtf8.encode
  | constant c => textOf c

theorem utf8_brings (text : String) :
    Brings (Interning.utf8 text) [Text.ModifiedUtf8.encode text] :=
  constant_brings _

theorem classRef_brings (name : String) :
    Brings (Interning.classRef name) [Text.ModifiedUtf8.encode name] :=
  (utf8_brings name).bind fun n => constant_brings (.classRef n)

theorem nameAndType_brings (name descriptor : String) :
    Brings (Interning.nameAndType name descriptor)
      ([name, descriptor].map Text.ModifiedUtf8.encode) :=
  (utf8_brings name).bind fun n => (utf8_brings descriptor).bind fun d =>
    constant_brings (.nameAndType n d)

/-- A reference to a member brings the three texts, whatever constant it ends in. -/
theorem memberRef_brings (make : UInt16 → UInt16 → Constant) (owner name descriptor : String)
    (hmake : ∀ o n, textOf (make o n) = []) :
    Brings (do constant (make (← Interning.classRef owner)
        (← Interning.nameAndType name descriptor)))
      ([owner, name, descriptor].map Text.ModifiedUtf8.encode) := by
  have hlast : ∀ o n, Brings (constant (make o n)) [] := fun o n =>
    hmake o n ▸ constant_brings (make o n)
  exact (classRef_brings owner).bind fun o => (nameAndType_brings name descriptor).bind (hlast o)

theorem Request.run_brings (r : Request) : Brings r.run r.texts := by
  cases r with
  | utf8 text => exact utf8_brings text
  | classRef name => exact classRef_brings name
  | string text => exact (utf8_brings text).bind fun n => constant_brings (.string n)
  | nameAndType name descriptor => exact nameAndType_brings name descriptor
  | fieldRef owner name descriptor =>
    exact memberRef_brings .fieldRef owner name descriptor fun _ _ => rfl
  | methodRef owner name descriptor ofInterface =>
    refine memberRef_brings (fun o n => if ofInterface then .interfaceMethodRef o n
      else .methodRef o n) owner name descriptor fun o n => ?_
    cases ofInterface <;> rfl
  | constant c => exact constant_brings c

/-! ## Reading back -/

/-- After requests that were all granted to the empty pool, the pool is well formed and not too
large; its written form is read back, and consumed, to the same slots exactly if all texts asked for
are below 65536 bytes, and to the same table then too.  A longer text is granted like any other, but
its length does not fit the field that it is written to. -/
theorem read_back_iff {requests : List Request} {slots : List UInt16} {p : Pool}
    (h : Succeeds (requests.mapM Request.run) .empty slots p) :
    p.WellFormed ∧ p.count ≤ Pool.maxCount ∧
      ((∃ q, Pool.read.run (.start p.toBytes) = .ok (q, ⟨p.toBytes.length, []⟩) ∧
        q.slots = p.slots) ↔ ∀ r ∈ requests, ∀ t ∈ r.texts, t.length < 0x10000) ∧
      ((∀ r ∈ requests, ∀ t ∈ r.texts, t.length < 0x10000) → Reads Pool.read p.toBytes p) := by
  obtain ⟨hext, htexts⟩ := Brings.mapM Request.run_brings requests .empty h
  have hbuilt : p.Built := hext.built .empty
  have hcount : p.count ≤ Pool.maxCount := hext.count_le (by decide)
  have hfits : p.Fits ↔ ∀ r ∈ requests, ∀ t ∈ r.texts, t.length < 0x10000 := by
    simp only [Pool.fits_iff, htexts, Pool.not_hasText_empty, false_or, List.mem_flatMap,
      forall_exists_index, and_imp]
    exact ⟨fun hall r hr t ht => hall t r hr ht, fun hall t r hr ht => hall r hr t ht⟩
  refine ⟨hbuilt.wellFormed, hcount, ?_, fun hall => Pool.reads hbuilt (hfits.2 hall) hcount⟩
  rw [← hfits]
  constructor
  · rintro ⟨q, hread, hslots⟩
    exact Pool.fits_of_read hread hslots
  · intro hp
    exact ⟨p, by simpa [Cursor.start] using Pool.reads hbuilt hp hcount 0 [], rfl⟩

/-- The request for a text of 65536 bytes. -/
def oversized : Request := .constant (.utf8 (List.replicate 0x10000 0x61))

theorem run_oversized :
    Succeeds ([oversized].mapM Request.run) .empty [1]
      (Pool.empty.append (.utf8 (List.replicate 0x10000 0x61))) := by
  have hnew : Pool.empty.firstSlot[Constant.utf8 (List.replicate 0x10000 0x61)]? = none :=
    Std.ExtTreeMap.getElem?_empty
  rw [List.mapM_cons, List.mapM_nil]
  refine succeeds_bind.2 ⟨1, _, succeeds_constant.2 (.inr ⟨hnew, by decide, rfl, rfl⟩), ?_⟩
  exact succeeds_bind.2 ⟨[], _, succeeds_pure.2 ⟨rfl, rfl⟩, succeeds_pure.2 ⟨rfl, rfl⟩⟩

/-- The request is granted, and the pool is not read back. -/
theorem read_back_iff_oversized :
    ∃ slots p, Succeeds ([oversized].mapM Request.run) .empty slots p ∧
      ¬∃ q, Pool.read.run (.start p.toBytes) = .ok (q, ⟨p.toBytes.length, []⟩) ∧
        q.slots = p.slots := by
  refine ⟨_, _, run_oversized, fun hread => ?_⟩
  have hfits := (read_back_iff run_oversized).2.2.1.1 hread
  have hlen := hfits oversized (List.mem_singleton.2 rfl) _ (List.mem_singleton.2 rfl)
  rw [List.length_replicate] at hlen
  omega

end Interning

end EntityLoom
