import EntityLoom.Proofs.Code.Walk

/-!
# A walk tiles the code

The instructions that a walk visits lie one behind the other from the start of the code on, each of
them inside it, and no byte in front of the place where the walk stops is left out or belongs to two
of them.  The walk stops at the end of the code, or at an instruction whose length cannot be told.

The main statement is `Walk.ofCode_tiles`.  It speaks of any iteration over the code, given step by
step by `Walk.next?`: there is one sequence of items that it produces, that of the walk.  Two facts
carry it.  A length is told from the bytes of the instruction and from its place modulo four
(`Walk.lengthAt_congr`), and a walk is determined by the lengths that it meets (`Follow.walk`).
-/

namespace EntityLoom.Walk

/-! ## Lengths at places -/

/-- The length of the instruction at a place of a code array. -/
def lengthAt (code : Bytes) (pc : Nat) : Except FormatError Nat :=
  instructionLength pc (code.drop pc)

variable {code code' : Bytes} {pc pc' n stop : Nat} {op : UInt8}

theorem padding_congr (h : pc' % 4 = pc % 4) : padding pc' = padding pc := by
  unfold padding
  omega

/-- The place of a word matters only where the code ends inside the word. -/
theorem int32At_of_place {k : Nat} {v : Int} (h : int32At pc code k = .ok v) :
    int32At pc' code k = .ok v := by
  unfold int32At at h ⊢
  split at h
  · exact h
  · cases h

/-- Of the place only the remainder modulo four matters, which decides the padding. -/
theorem claimedLength_of_place (h : claimedLength pc op code = .ok n) (hpc : pc' % 4 = pc % 4) :
    claimedLength pc' op code = .ok n := by
  unfold claimedLength at h ⊢
  rw [padding_congr hpc]
  split at h
  · exact h
  · obtain ⟨low, hlow, h⟩ := bind_eq_ok.1 h
    obtain ⟨high, hhigh, h⟩ := bind_eq_ok.1 h
    refine bind_eq_ok.2 ⟨low, int32At_of_place hlow, bind_eq_ok.2 ⟨high, int32At_of_place hhigh, ?_⟩⟩
    split at h
    · cases h
    · next hle => exact (if_neg hle).trans h
  · obtain ⟨pairs, hpairs, h⟩ := bind_eq_ok.1 h
    refine bind_eq_ok.2 ⟨pairs, int32At_of_place hpairs, ?_⟩
    split at h
    · cases h
    · next hle => exact (if_neg hle).trans h
  · split at h
    · exact h
    · cases h
  · cases h

theorem instructionLength_of_place (h : instructionLength pc code = .ok n)
    (hpc : pc' % 4 = pc % 4) : instructionLength pc' code = .ok n := by
  cases code with
  | nil => cases h
  | cons op rest =>
    obtain ⟨hclaimed, hle⟩ := instructionLength_cons_eq_ok.1 h
    exact instructionLength_cons_eq_ok.2 ⟨claimedLength_of_place hclaimed hpc, hle⟩

/-- The length of an instruction depends on its bytes and on its place modulo four. -/
theorem lengthAt_congr (h : lengthAt code pc = .ok n) (hpc : pc' % 4 = pc % 4)
    (hbytes : ∀ k < n, code'[pc' + k]? = code[pc + k]?) : lengthAt code' pc' = .ok n := by
  refine instructionLength_of_take (instructionLength_of_place h hpc) (eq_of_getElem? fun k hk => ?_)
  rw [List.getElem?_drop, List.getElem?_drop]
  exact hbytes k hk

/-- An instruction whose length can be told has a first byte, and the code has room for it. -/
theorem lengthAt_bounds (h : lengthAt code pc = .ok n) :
    0 < n ∧ pc + n ≤ code.length ∧ ∃ op, code[pc]? = some op := by
  obtain ⟨hpos, hle⟩ := instructionLength_bounds h
  rw [List.length_drop] at hle
  exact ⟨hpos, by omega, code[pc], List.getElem?_eq_getElem (by omega)⟩

theorem drop_eq_cons (h : code[pc]? = some op) : code.drop pc = op :: code.drop (pc + 1) := by
  obtain ⟨hlt, rfl⟩ := List.getElem?_eq_some_iff.1 h
  exact List.drop_eq_getElem_cons hlt

theorem getElem?_of_drop {rest : Bytes} (h : code.drop pc = op :: rest) : code[pc]? = some op := by
  rw [← List.head?_drop, h, List.head?_cons]

/-! ## Instructions that follow one another -/

/-- The instructions follow one another from `pc` on, and the last of them ends at `stop`. -/
inductive Follow (code : Bytes) : Nat → List (Nat × UInt8) → Nat → Prop
  | nil (pc : Nat) : Follow code pc [] pc
  | cons {pc n stop : Nat} {op : UInt8} {rest : List (Nat × UInt8)} (hop : code[pc]? = some op)
      (hn : lengthAt code pc = .ok n) (hrest : Follow code (pc + n) rest stop) :
      Follow code pc ((pc, op) :: rest) stop

/-- A walk may stop at `stop`, with the fault that it then reports: at the end of the code, or before
it where the length of the next instruction cannot be told. -/
inductive Stops (code : Bytes) (stop : Nat) : Option FormatError → Prop
  | finished (h : stop = code.length) : Stops code stop none
  | fault {e : FormatError} (h : stop < code.length) (he : lengthAt code stop = .error e) :
      Stops code stop (some e)

variable {visited : List (Nat × UInt8)}

theorem Follow.le (h : Follow code pc visited stop) : pc + visited.length ≤ stop := by
  induction h with
  | nil pc => exact Nat.le_refl _
  | cons hop hn _ ih =>
    have hpos := (lengthAt_bounds hn).1
    rw [List.length_cons]
    omega

/-- A walk is determined by the instructions that follow one another up to where it stops. -/
theorem Follow.walk {f : Option FormatError} (h : Follow code pc visited stop)
    (hstop : Stops code stop f) : continueFrom [] pc (code.drop pc) = ⟨visited, f⟩ := by
  induction h with
  | nil pc =>
    cases hstop with
    | finished hend =>
      rw [hend, List.drop_length]
      simp [continueFrom]
    | fault hlt he =>
      rw [lengthAt, List.drop_eq_getElem_cons hlt] at he
      rw [List.drop_eq_getElem_cons hlt, continueFrom_error he]
  | @cons pc n _ op _ hop hn _ ih =>
    rw [lengthAt, drop_eq_cons hop] at hn
    have hbehind : (op :: code.drop (pc + 1)).drop n = code.drop (pc + n) := by
      rw [← drop_eq_cons hop, List.drop_drop]
    rw [drop_eq_cons hop, continueFrom_cons hn, hbehind, ih hstop]

/-- Every walk comes by instructions that follow one another. -/
theorem exists_follow (pc : Nat) (rest : Bytes) :
    ∀ code : Bytes, code.drop pc = rest → pc ≤ code.length → ∃ stop,
      Follow code pc (continueFrom [] pc rest).visited stop ∧
        Stops code stop (continueFrom [] pc rest).fault := by
  induction pc, rest using walk_induction with
  | nil pc =>
    intro code hrest hle
    have hend : pc = code.length := Nat.le_antisymm hle (List.drop_eq_nil_iff.1 hrest)
    simp only [continueFrom, List.reverse_nil]
    exact ⟨pc, .nil pc, .finished hend⟩
  | error pc op rest e he =>
    intro code hrest hle
    rw [continueFrom_error he]
    obtain ⟨hlt, -⟩ := List.getElem?_eq_some_iff.1 (getElem?_of_drop hrest)
    exact ⟨pc, .nil pc, .fault hlt (by rw [lengthAt, hrest, he])⟩
  | step pc op rest n hn ih =>
    intro code hrest hle
    rw [continueFrom_cons hn]
    have hop := getElem?_of_drop hrest
    rw [← hrest] at hn
    obtain ⟨-, hinside, -⟩ := lengthAt_bounds hn
    obtain ⟨stop, hfollow, hstop⟩ := ih code (by rw [← hrest, List.drop_drop]) hinside
    exact ⟨stop, .cons hop hn hfollow, hstop⟩

/-! ## Tilings -/

/-- The byte at `k` belongs to an instruction. -/
def Covers (code : Bytes) (i : Nat × UInt8) (k : Nat) : Prop :=
  ∃ n, lengthAt code i.1 = .ok n ∧ i.1 ≤ k ∧ k < i.1 + n

/-- The instructions tile the code from `start` up to `stop`. -/
structure Tiles (code : Bytes) (start stop : Nat) (is : List (Nat × UInt8)) : Prop where
  /-- The first instruction stands at the start. -/
  first : ∀ i, is.head? = some i → i.1 = start
  /-- Any other one stands where the one before it ends. -/
  next : ∀ k i j, is[k]? = some i → is[k + 1]? = some j →
    ∃ n, lengthAt code i.1 = .ok n ∧ j.1 = i.1 + n
  increasing : (is.map Prod.fst).Pairwise (· < ·)
  inside : ∀ i ∈ is, code[i.1]? = some i.2 ∧
    ∃ n, lengthAt code i.1 = .ok n ∧ 0 < n ∧ start ≤ i.1 ∧ i.1 + n ≤ stop
  /-- A byte belongs to exactly one instruction. -/
  covers : ∀ k, start ≤ k → k < stop → ∃! i, i ∈ is ∧ Covers code i k

/-- Instructions that follow one another tile what lies between their ends. -/
theorem Follow.tiles (h : Follow code pc visited stop) : Tiles code pc stop visited := by
  induction h with
  | nil pc => exact ⟨nofun, nofun, .nil, nofun, fun k hk hk' => absurd hk' (Nat.not_lt_of_le hk)⟩
  | @cons pc n stop op rest hop hn hrest ih =>
    have hpos := (lengthAt_bounds hn).1
    have hle : pc + n ≤ stop := Nat.le_trans (Nat.le_add_right _ _) hrest.le
    have hbehind : ∀ i ∈ rest, pc + n ≤ i.1 := fun i hi => by
      obtain ⟨-, m, -, -, hstart, -⟩ := ih.inside i hi
      exact hstart
    refine ⟨?first, ?next, ?increasing, ?inside, ?covers⟩
    case first =>
      rintro i ⟨⟩
      rfl
    case next =>
      intro k i j hi hj
      cases k with
      | zero =>
        cases hi
        exact ⟨n, hn, ih.first j (by rwa [List.head?_eq_getElem?])⟩
      | succ k => exact ih.next k i j hi hj
    case increasing =>
      refine List.pairwise_cons.2 ⟨fun q hq => ?_, ih.increasing⟩
      obtain ⟨i, hi, rfl⟩ := List.mem_map.1 hq
      exact Nat.lt_of_lt_of_le (Nat.lt_add_of_pos_right hpos) (hbehind i hi)
    case inside =>
      intro i hi
      rcases List.mem_cons.1 hi with rfl | hi
      · exact ⟨hop, n, hn, hpos, Nat.le_refl pc, hle⟩
      · obtain ⟨hbyte, m, hm, hmpos, hstart, hend⟩ := ih.inside i hi
        exact ⟨hbyte, m, hm, hmpos, by omega, hend⟩
    case covers =>
      intro k hk hk'
      -- A byte belongs to the first instruction, or it lies behind it.
      by_cases hfirst : k < pc + n
      · refine ⟨(pc, op), ⟨List.mem_cons_self, n, hn, hk, hfirst⟩, ?_⟩
        rintro i ⟨hi, m, hm, hik, -⟩
        refine (List.mem_cons.1 hi).resolve_right fun hi => ?_
        exact absurd (hbehind i hi) (by omega)
      · obtain ⟨i, ⟨hi, hcovers⟩, hunique⟩ := ih.covers k (Nat.le_of_not_lt hfirst) hk'
        refine ⟨i, ⟨List.mem_cons_of_mem _ hi, hcovers⟩, ?_⟩
        rintro j ⟨hj, hjk⟩
        rcases List.mem_cons.1 hj with rfl | hj
        · obtain ⟨m, hm, -, hlt⟩ := hjk
          rw [hn] at hm
          obtain rfl := Except.ok.inj hm
          exact absurd hlt hfirst
        · exact hunique j ⟨hj, hjk⟩

/-! ## Iterations -/

/-- The items of a walk: the instructions, and behind them the fault if there is one. -/
def items (w : Walk) : List (Except FormatError (Nat × UInt8)) :=
  w.visited.map .ok ++ w.fault.toList.map .error

/-- What an iteration that stands at `pc` produces next, and where it stands then.  Behind an
instruction it goes on with the next one, and behind a fault it is at the end. -/
def next? (code : Bytes) (pc : Nat) : Option (Except FormatError (Nat × UInt8) × Nat) :=
  match code[pc]? with
  | none => none
  | some op =>
    match lengthAt code pc with
    | .ok n => some (.ok (pc, op), pc + n)
    | .error e => some (.error e, code.length)

/-- An iteration that stands at `pc` produces the items and then no more. -/
inductive Produces (code : Bytes) : Nat → List (Except FormatError (Nat × UInt8)) → Prop
  | done {pc : Nat} (h : next? code pc = none) : Produces code pc []
  | item {pc pc' : Nat} {x : Except FormatError (Nat × UInt8)}
      {xs : List (Except FormatError (Nat × UInt8))} (h : next? code pc = some (x, pc'))
      (hrest : Produces code pc' xs) : Produces code pc (x :: xs)

theorem Produces.unique {xs ys : List (Except FormatError (Nat × UInt8))}
    (h : Produces code pc xs) (h' : Produces code pc ys) : xs = ys := by
  induction h generalizing ys with
  | done h =>
    cases h' with
    | done => rfl
    | item hnext => cases h.symm.trans hnext
  | item h _ ih =>
    cases h' with
    | done hnext => cases h.symm.trans hnext
    | item hnext hrest =>
      obtain ⟨rfl, rfl⟩ := Prod.mk.inj (Option.some.inj (h.symm.trans hnext))
      rw [ih hrest]

theorem next?_length : next? code code.length = none := by
  unfold next?
  rw [List.getElem?_eq_none (Nat.le_refl _)]

/-- Where instructions follow one another, an iteration produces them, and the fault behind them. -/
theorem Follow.produces {f : Option FormatError} (h : Follow code pc visited stop)
    (hstop : Stops code stop f) : Produces code pc (items ⟨visited, f⟩) := by
  induction h with
  | nil pc =>
    cases hstop with
    | finished hend => exact hend ▸ .done next?_length
    | fault hlt he =>
      refine .item ?_ (.done next?_length)
      unfold next?
      rw [List.getElem?_eq_getElem hlt, he]
  | cons hop hn _ ih =>
    refine .item ?_ (ih hstop)
    unfold next?
    rw [hop, hn]

/-! ## Replaced bytes -/

/-- Instructions whose lengths stay the same follow one another as before. -/
theorem Follow.of_lengths (h : Follow code pc visited stop)
    (hsame : ∀ i ∈ visited, ∀ n, lengthAt code i.1 = .ok n → lengthAt code' i.1 = .ok n) :
    ∃ visited', visited'.map Prod.fst = visited.map Prod.fst ∧
      Follow code' pc visited' stop := by
  induction h with
  | nil pc => exact ⟨[], rfl, .nil pc⟩
  | @cons pc n _ _ _ _ hn _ ih =>
    obtain ⟨visited', hplaces, hfollow⟩ := ih fun i hi => hsame i (List.mem_cons_of_mem _ hi)
    have hn' := hsame _ List.mem_cons_self n hn
    obtain ⟨-, -, op', hop'⟩ := lengthAt_bounds hn'
    exact ⟨(pc, op') :: visited', by rw [List.map_cons, List.map_cons, hplaces],
      .cons hop' hn' hfollow⟩

/-- A walk stops at the same place, and with the same fault, in code that is the same from there
on. -/
theorem Stops.of_drop {f : Option FormatError} (h : Stops code stop f)
    (hlength : code'.length = code.length) (hdrop : code'.drop stop = code.drop stop) :
    Stops code' stop f := by
  cases h with
  | finished hend => exact .finished (hend.trans hlength.symm)
  | fault hlt he => exact .fault (hlength ▸ hlt) (by rw [lengthAt, hdrop]; exact he)

/-- Bytes that change within one instruction, which keeps its length, change no other length. -/
theorem Tiles.lengthAt_of_replaced (h : Tiles code 0 stop visited) {i j : Nat × UInt8}
    (hi : i ∈ visited) (hn : lengthAt code i.1 = .ok n)
    (hkeep : ∀ k, k < i.1 ∨ i.1 + n ≤ k → code'[k]? = code[k]?)
    (hn' : lengthAt code' i.1 = .ok n) (hj : j ∈ visited) {m : Nat}
    (hm : lengthAt code j.1 = .ok m) : lengthAt code' j.1 = .ok m := by
  by_cases hij : i = j
  · subst hij
    rw [hn] at hm
    exact hm ▸ hn'
  · refine lengthAt_congr hm rfl fun k hk => hkeep _ ?_
    -- A byte of the one instruction is none of the other.
    by_contra hshared
    obtain ⟨-, m', hm', -, -, hend⟩ := h.inside j hj
    rw [hm] at hm'
    obtain rfl := Except.ok.inj hm'
    obtain ⟨_, -, hunique⟩ := h.covers (j.1 + k) (Nat.zero_le _) (by omega)
    have hfirst := hunique i ⟨hi, n, hn, by omega, by omega⟩
    have hsecond := hunique j ⟨hj, m, hm, by omega, by omega⟩
    exact hij (hfirst.trans hsecond.symm)

/-- Behind the place where the walk stops nothing changes with the bytes of an instruction. -/
theorem Tiles.drop_of_replaced (h : Tiles code 0 stop visited) {i : Nat × UInt8} (hi : i ∈ visited)
    (hn : lengthAt code i.1 = .ok n)
    (hkeep : ∀ k, k < i.1 ∨ i.1 + n ≤ k → code'[k]? = code[k]?) :
    code'.drop stop = code.drop stop := by
  obtain ⟨-, m, hm, -, -, hend⟩ := h.inside i hi
  rw [hn] at hm
  obtain rfl := Except.ok.inj hm
  refine List.ext_getElem? fun k => ?_
  rw [List.getElem?_drop, List.getElem?_drop]
  exact hkeep _ (.inr (by omega))

/-! ## The walk over a whole code array -/

/-- Every code array is tiled by the instructions that a walk visits.  An iteration over the code
produces the items of the walk and no others, at most one for each byte.  The instructions tile the
code from its start up to the place where the walk stops, and that is the end of the code if there is
no fault; otherwise the fault comes last, and tells why the next instruction has no length.  Whether
an instruction has a given length is told from its bytes and from its place modulo four.  So bytes
that change within one instruction, which keeps its length, move no boundary. -/
theorem ofCode_tiles (code : Bytes) :
    (∀ xs, Produces code 0 xs ↔ xs = (ofCode code).items) ∧
    (ofCode code).items.length ≤ code.length ∧
    (∃ stop, Tiles code 0 stop (ofCode code).visited ∧ Stops code stop (ofCode code).fault) ∧
    (∀ code' pc pc' n, pc' % 4 = pc % 4 → (∀ k < n, code'[pc' + k]? = code[pc + k]?) →
      (lengthAt code' pc' = .ok n ↔ lengthAt code pc = .ok n)) ∧
    ∀ i ∈ (ofCode code).visited, ∀ n code', lengthAt code i.1 = .ok n →
      code'.length = code.length → (∀ k, k < i.1 ∨ i.1 + n ≤ k → code'[k]? = code[k]?) →
      lengthAt code' i.1 = .ok n →
        (ofCode code').visited.map Prod.fst = (ofCode code).visited.map Prod.fst ∧
          (ofCode code').fault = (ofCode code).fault := by
  obtain ⟨stop, hfollow, hstop⟩ := exists_follow 0 code code rfl (Nat.zero_le _)
  change Follow code 0 (ofCode code).visited stop at hfollow
  change Stops code stop (ofCode code).fault at hstop
  refine ⟨fun xs => ⟨fun h => h.unique (hfollow.produces hstop), ?_⟩, ?_,
    ⟨stop, hfollow.tiles, hstop⟩, fun code' pc pc' n hpc hbytes => ?_, ?_⟩
  · rintro rfl
    exact hfollow.produces hstop
  · have hle := hfollow.le
    rw [items, List.length_append, List.length_map, List.length_map]
    generalize (ofCode code).fault = f at hstop ⊢
    cases hstop with
    | finished hend => simp; omega
    | fault hlt he => simp; omega
  · exact ⟨fun h => lengthAt_congr h hpc.symm fun k hk => (hbytes k hk).symm,
      fun h => lengthAt_congr h hpc hbytes⟩
  · intro i hi n code' hn hlength hkeep hn'
    obtain ⟨visited', hplaces, hfollow'⟩ := hfollow.of_lengths fun j hj m hm =>
      hfollow.tiles.lengthAt_of_replaced hi hn hkeep hn' hj hm
    have hdrop := hfollow.tiles.drop_of_replaced hi hn hkeep
    have hwalk : ofCode code' = ⟨visited', (ofCode code).fault⟩ :=
      hfollow'.walk (hstop.of_drop hlength hdrop)
    rw [hwalk]
    exact ⟨hplaces, rfl⟩

/-- Wide instructions, both switches and a return. -/
def switches : Bytes :=
  [0x2A, 0xC4, 0x15, 1, 0, 0xC4, 0x84, 1, 0, 0, 1,
    0xAA, 0, 0, 0, 0, 0, 0, 0, 0, 0, 0, 0, 1, 0, 0, 0, 0, 0, 0, 0, 0,
    0xAB, 0, 0, 0, 0, 0, 0, 0, 0, 0, 0, 1, 0, 0, 0, 0, 0, 0, 0, 0, 0xB1]

/-- A byte of the first switch that looks like an instruction moves no boundary. -/
theorem ofCode_tiles_switches :
    (ofCode (switches.set 12 0xB1)).visited.map Prod.fst = [0, 1, 5, 11, 32, 52] ∧
      (ofCode (switches.set 12 0xB1)).fault = none := by
  obtain ⟨-, -, -, -, hreplaced⟩ := ofCode_tiles switches
  have hswitch : (11, 0xAA) ∈ (ofCode switches).visited := by decide +kernel
  obtain ⟨hplaces, hfault⟩ := hreplaced _ hswitch 21 (switches.set 12 0xB1) (by decide +kernel)
    List.length_set (fun k hk => List.getElem?_set_ne (by omega)) (by decide +kernel)
  rw [hplaces, hfault]
  decide +kernel

end EntityLoom.Walk
