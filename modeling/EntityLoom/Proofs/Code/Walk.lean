import EntityLoom.Code.Walk
import EntityLoom.Proofs.Outcomes

/-!
# The walk over existing code

The length of an instruction depends on its own bytes alone (`Walk.instructionLength_append`), and
the instructions that a walk visits stand one behind the other (`Walk.visited_pairwise`).  So code in
which some of the visited instructions were replaced by others of the same fixed length is walked in
the same steps: that is `Walk.continueFrom_replaced`.
-/

namespace EntityLoom.Walk

/-! ## Lengths -/

theorem shape_ne_fixed_zero : ∀ i : Fin 256, shape (UInt8.ofNat i) ≠ .fixed 0 := by
  decide +kernel

theorem fixed_pos {op : UInt8} {n : Nat} (h : shape op = .fixed n) : 0 < n := by
  rcases Nat.eq_zero_or_pos n with rfl | hn
  · have hne := shape_ne_fixed_zero ⟨op.toNat, op.toNat_lt⟩
    rw [UInt8.ofNat_toNat] at hne
    exact absurd h hne
  · exact hn

theorem claimedLength_pos {pc n : Nat} {op : UInt8} {code : Bytes}
    (h : claimedLength pc op code = .ok n) : 0 < n := by
  unfold claimedLength at h
  split at h
  · next m hm =>
    obtain rfl := Except.ok.inj h
    exact fixed_pos hm
  · obtain ⟨low, -, h⟩ := bind_eq_ok.1 h
    obtain ⟨high, -, h⟩ := bind_eq_ok.1 h
    split at h
    · cases h
    · obtain rfl := Except.ok.inj h
      omega
  · obtain ⟨pairs, -, h⟩ := bind_eq_ok.1 h
    split at h
    · cases h
    · obtain rfl := Except.ok.inj h
      omega
  · split at h
    · obtain rfl := Except.ok.inj h
      split <;> omega
    · cases h
  · cases h

/-- An instruction whose length can be told lies within the code. -/
theorem instructionLength_cons_eq_ok {pc n : Nat} {op : UInt8} {rest : Bytes} :
    instructionLength pc (op :: rest) = .ok n ↔
      claimedLength pc op (op :: rest) = .ok n ∧ n ≤ rest.length + 1 := by
  change (claimedLength pc op (op :: rest) >>= fun n =>
    if hasAtLeast n (op :: rest) then Except.ok n
    else .error (.unexpectedEnd (pc + (op :: rest).length))) = .ok n ↔ _
  rw [bind_eq_ok]
  constructor
  · rintro ⟨m, hm, h⟩
    split at h
    · next hlong =>
      obtain rfl := Except.ok.inj h
      exact ⟨hm, hasAtLeast_iff.1 hlong⟩
    · cases h
  · rintro ⟨hn, hle⟩
    refine ⟨n, hn, ?_⟩
    rw [if_pos (hasAtLeast_iff.2 hle)]

theorem int32At_append {pc k : Nat} {front : Bytes} (hk : k + 4 ≤ front.length) (back : Bytes) :
    int32At pc (front ++ back) k = int32At pc front k := by
  have hdrop : 4 ≤ (front.drop k).length := by
    rw [List.length_drop]
    omega
  unfold int32At
  rw [List.drop_append_of_le_length (by omega)]
  match hbytes : front.drop k with
  | b₃ :: b₂ :: b₁ :: b₀ :: rest => rfl
  | [] | [_] | [_, _] | [_, _, _] =>
    rw [hbytes] at hdrop
    simp at hdrop

theorem claimedLength_append {pc n : Nat} {op : UInt8} {front back : Bytes}
    (h : claimedLength pc op (front ++ back) = .ok n) (hn : n ≤ front.length) (back' : Bytes) :
    claimedLength pc op (front ++ back') = .ok n := by
  unfold claimedLength at h ⊢
  split at h
  · exact h
  · obtain ⟨low, hlow, h⟩ := bind_eq_ok.1 h
    obtain ⟨high, hhigh, h⟩ := bind_eq_ok.1 h
    have hlen : 1 + padding pc + 12 ≤ front.length := by
      split at h
      · cases h
      · obtain rfl := Except.ok.inj h
        omega
    rw [int32At_append (by omega)] at hlow hhigh
    refine bind_eq_ok.2 ⟨low, ?_, bind_eq_ok.2 ⟨high, ?_, h⟩⟩
    · rw [int32At_append (by omega), hlow]
    · rw [int32At_append (by omega), hhigh]
  · obtain ⟨pairs, hpairs, h⟩ := bind_eq_ok.1 h
    have hlen : 1 + padding pc + 8 ≤ front.length := by
      split at h
      · cases h
      · obtain rfl := Except.ok.inj h
        omega
    rw [int32At_append (by omega)] at hpairs
    refine bind_eq_ok.2 ⟨pairs, ?_, h⟩
    rw [int32At_append (by omega), hpairs]
  · have htwo : 2 ≤ front.length := by
      split at h
      · obtain rfl := Except.ok.inj h
        split at hn <;> omega
      · cases h
    match front, htwo with
    | a :: b :: rest, _ => exact h
  · cases h

/-- The length of an instruction is told from its own bytes. -/
theorem instructionLength_append {pc n : Nat} {front back : Bytes}
    (h : instructionLength pc (front ++ back) = .ok n) (hn : n ≤ front.length) (back' : Bytes) :
    instructionLength pc (front ++ back') = .ok n := by
  cases front with
  | nil =>
    cases back with
    | nil => cases h
    | cons op rest =>
      have hpos := claimedLength_pos (instructionLength_cons_eq_ok.1 h).1
      exact absurd hn (Nat.not_le_of_lt hpos)
  | cons op front =>
    obtain ⟨hclaimed, -⟩ := instructionLength_cons_eq_ok.1 h
    refine instructionLength_cons_eq_ok.2 ⟨claimedLength_append hclaimed hn back', ?_⟩
    change n ≤ (front ++ back').length + 1
    rw [List.length_cons] at hn
    rw [List.length_append]
    omega

/-- An instruction whose length can be told has bytes, and the code has room for it. -/
theorem instructionLength_bounds {pc n : Nat} {code : Bytes} (h : instructionLength pc code = .ok n) :
    0 < n ∧ n ≤ code.length := by
  cases code with
  | nil => cases h
  | cons op rest =>
    obtain ⟨hclaimed, hle⟩ := instructionLength_cons_eq_ok.1 h
    exact ⟨claimedLength_pos hclaimed, hle⟩

/-- The length of an instruction is the same in code that starts with its bytes. -/
theorem instructionLength_of_take {pc n : Nat} {code code' : Bytes}
    (h : instructionLength pc code = .ok n) (hbytes : code'.take n = code.take n) :
    instructionLength pc code' = .ok n := by
  obtain ⟨-, hle⟩ := instructionLength_bounds h
  rw [← List.take_append_drop n code', hbytes]
  refine @instructionLength_append _ _ _ (code.drop n) ?_ ?_ _
  · rw [List.take_append_drop]
    exact h
  · exact Nat.le_of_eq (List.length_take_of_le hle).symm

theorem instructionLength_of_fixed {pc n : Nat} {op : UInt8} {rest : Bytes}
    (h : shape op = .fixed n) (hn : n ≤ rest.length + 1) :
    instructionLength pc (op :: rest) = .ok n := by
  refine instructionLength_cons_eq_ok.2 ⟨?_, hn⟩
  unfold claimedLength
  rw [h]

theorem fixed_of_instructionLength {pc n m : Nat} {op : UInt8} {rest : Bytes}
    (hop : shape op = .fixed m) (h : instructionLength pc (op :: rest) = .ok n) : n = m := by
  have hclaimed := (instructionLength_cons_eq_ok.1 h).1
  unfold claimedLength at hclaimed
  rw [hop] at hclaimed
  exact (Except.ok.inj hclaimed).symm

/-! ## Steps -/

theorem continueFrom_acc (acc : List (Nat × UInt8)) (pc : Nat) (code : Bytes) :
    continueFrom acc pc code =
      ⟨acc.reverse ++ (continueFrom [] pc code).visited, (continueFrom [] pc code).fault⟩ := by
  induction hlen : code.length using Nat.strongRecOn generalizing acc pc code with
  | _ len ih =>
    cases code with
    | nil => simp [continueFrom]
    | cons op rest =>
      cases hn : instructionLength pc (op :: rest) with
      | error e => simp [continueFrom, hn]
      | ok n =>
        have hlt : (rest.drop (n - 1)).length < len := by
          rw [← hlen, List.length_drop, List.length_cons]
          omega
        rw [continueFrom, hn, continueFrom, hn]
        dsimp only
        rw [ih _ hlt ((pc, op) :: acc) _ _ rfl, ih _ hlt [(pc, op)] _ _ rfl]
        simp

/-- A walk that starts at an instruction visits it and goes on behind it. -/
theorem continueFrom_cons {pc n : Nat} {op : UInt8} {rest : Bytes}
    (h : instructionLength pc (op :: rest) = .ok n) :
    continueFrom [] pc (op :: rest) =
      ⟨(pc, op) :: (continueFrom [] (pc + n) ((op :: rest).drop n)).visited,
        (continueFrom [] (pc + n) ((op :: rest).drop n)).fault⟩ := by
  have hpos := claimedLength_pos (instructionLength_cons_eq_ok.1 h).1
  have hdrop : (op :: rest).drop n = rest.drop (n - 1) := by
    obtain ⟨m, rfl⟩ := Nat.exists_eq_add_of_lt hpos
    rw [List.drop_succ_cons, Nat.add_sub_cancel]
  rw [continueFrom, h, hdrop]
  dsimp only
  rw [continueFrom_acc]
  rfl

/-- A walk ends at an instruction whose length cannot be told. -/
theorem continueFrom_error {pc : Nat} {op : UInt8} {rest : Bytes} {e : FormatError}
    (h : instructionLength pc (op :: rest) = .error e) :
    continueFrom [] pc (op :: rest) = ⟨[], some e⟩ := by
  rw [continueFrom, h]
  rfl

/-- The walk by which statements about it are proved: at the end of the code, at an instruction
whose length cannot be told, or at an instruction and then behind it. -/
theorem walk_induction {P : Nat → Bytes → Prop} (nil : ∀ pc, P pc [])
    (error : ∀ pc op rest e, instructionLength pc (op :: rest) = .error e → P pc (op :: rest))
    (step : ∀ pc op rest n, instructionLength pc (op :: rest) = .ok n →
      P (pc + n) ((op :: rest).drop n) → P pc (op :: rest)) (pc : Nat) (code : Bytes) :
    P pc code := by
  induction hlen : code.length using Nat.strongRecOn generalizing pc code with
  | _ len ih =>
    cases code with
    | nil => exact nil pc
    | cons op rest =>
      cases hn : instructionLength pc (op :: rest) with
      | error e => exact error pc op rest e hn
      | ok n =>
        have hpos := claimedLength_pos (instructionLength_cons_eq_ok.1 hn).1
        refine step pc op rest n hn (ih _ ?_ _ _ rfl)
        rw [← hlen, List.length_drop, List.length_cons]
        omega

/-! ## Visited instructions -/

/-- A visited instruction lies within the code and starts with the byte that the walk says. -/
theorem visited_inside {pc : Nat} {code : Bytes} {q : Nat} {op : UInt8}
    (h : (q, op) ∈ (continueFrom [] pc code).visited) :
    pc ≤ q ∧ code[q - pc]? = some op ∧
      ∀ n, shape op = .fixed n → q + n ≤ pc + code.length := by
  induction pc, code using walk_induction with
  | nil pc => simp [continueFrom] at h
  | error pc op' rest e he =>
    rw [continueFrom_error he] at h
    cases h
  | step pc op' rest n hn ih =>
    rw [continueFrom_cons hn] at h
    have hle := (instructionLength_cons_eq_ok.1 hn).2
    rcases List.mem_cons.1 h with heq | htail
    · cases heq
      refine ⟨Nat.le_refl _, by rw [Nat.sub_self]; rfl, fun m hm => ?_⟩
      obtain rfl := fixed_of_instructionLength hm hn
      rw [List.length_cons]
      omega
    · obtain ⟨hq, hbyte, hfixed⟩ := ih htail
      refine ⟨by omega, ?_, fun m hm => ?_⟩
      · rw [List.getElem?_drop] at hbyte
        rw [← hbyte]
        congr 1
        omega
      · have := hfixed m hm
        rw [List.length_drop, List.length_cons] at this
        rw [List.length_cons]
        omega

/-- Visited instructions stand one behind the other. -/
theorem visited_pairwise (pc : Nat) (code : Bytes) :
    (continueFrom [] pc code).visited.Pairwise fun x y =>
      x.1 < y.1 ∧ ∀ n, shape x.2 = .fixed n → x.1 + n ≤ y.1 := by
  induction pc, code using walk_induction with
  | nil pc => simp [continueFrom]
  | error pc op rest e he =>
    rw [continueFrom_error he]
    exact List.Pairwise.nil
  | step pc op rest n hn ih =>
    rw [continueFrom_cons hn]
    have hpos := claimedLength_pos (instructionLength_cons_eq_ok.1 hn).1
    refine List.Pairwise.cons (fun y hy => ?_) ih
    have hy := (visited_inside hy).1
    refine ⟨by omega, fun m hm => ?_⟩
    obtain rfl := fixed_of_instructionLength hm hn
    exact hy

/-- The last instruction of a walk without a fault ends with the code. -/
theorem ends_with_code {pc : Nat} {code : Bytes} (h : (continueFrom [] pc code).fault = none)
    (hne : code ≠ []) :
    ∃ q op n, (continueFrom [] pc code).visited.getLast? = some (q, op) ∧ pc ≤ q ∧
      instructionLength q (code.drop (q - pc)) = .ok n ∧ q + n = pc + code.length := by
  induction pc, code using walk_induction with
  | nil pc => exact absurd rfl hne
  | error pc op rest e he =>
    rw [continueFrom_error he] at h
    cases h
  | step pc op rest n hn ih =>
    rw [continueFrom_cons hn] at h ⊢
    have hle := (instructionLength_cons_eq_ok.1 hn).2
    by_cases hrest : (op :: rest).drop n = []
    · refine ⟨pc, op, n, ?_, Nat.le_refl pc, ?_, ?_⟩
      · rw [hrest]
        simp [continueFrom]
      · rw [Nat.sub_self]
        exact hn
      · have hlen := List.drop_eq_nil_iff.1 hrest
        rw [List.length_cons] at hlen ⊢
        omega
    · obtain ⟨q, op', n', hlast, hq, hlength, hend⟩ := ih h hrest
      refine ⟨q, op', n', ?_, by omega, ?_, ?_⟩
      · rw [List.getLast?_cons, hlast]
        rfl
      · rw [List.drop_drop] at hlength
        rw [← hlength]
        congr 2
        omega
      · rw [List.length_drop, List.length_cons] at hend
        rw [List.length_cons]
        omega

/-! ## Replaced instructions -/

/-- The second code is the first, from `pc` on, but for the three bytes at each of some sites.  A
site lies before `pc`, or is a visited instruction of three bytes that became another one. -/
structure Replaced (sites : Nat → Prop) (pc : Nat) (code code' : Bytes) : Prop where
  length : code'.length = code.length
  keep : ∀ k, (∀ s, sites s → ¬(s ≤ pc + k ∧ pc + k < s + 3)) → code'[k]? = code[k]?
  site : ∀ s, sites s → s + 3 ≤ pc ∨ pc ≤ s ∧ ∃ op op',
    (s, op) ∈ (continueFrom [] pc code).visited ∧ shape op = .fixed 3 ∧
      code'[s - pc]? = some op' ∧ shape op' = .fixed 3

theorem eq_of_getElem? {xs ys : Bytes} {n : Nat} (h : ∀ k, k < n → ys[k]? = xs[k]?) :
    ys.take n = xs.take n := by
  refine List.ext_getElem? fun k => ?_
  rw [List.getElem?_take, List.getElem?_take]
  split
  · next hk => exact h k hk
  · rfl

/-- The instruction at `pc` keeps its length. -/
theorem Replaced.instructionLength {sites : Nat → Prop} {pc n : Nat} {op : UInt8}
    {rest code' : Bytes} (h : Replaced sites pc (op :: rest) code')
    (hn : Walk.instructionLength pc (op :: rest) = .ok n) :
    Walk.instructionLength pc code' = .ok n := by
  have hle := (instructionLength_cons_eq_ok.1 hn).2
  by_cases hpc : sites pc
  · -- The site is the instruction itself: one of three bytes, before and after.
    rcases h.site pc hpc with hbefore | ⟨-, op₀, op', hvisited, hop, hbyte, hop'⟩
    · omega
    · have hop₀ := (visited_inside hvisited).2.1
      rw [Nat.sub_self] at hop₀ hbyte
      obtain rfl : op = op₀ := by simpa using hop₀
      obtain rfl := fixed_of_instructionLength hop hn
      cases code' with
      | nil => cases hbyte
      | cons b rest' =>
        obtain rfl : b = op' := by simpa using hbyte
        have hlength := h.length
        rw [List.length_cons, List.length_cons] at hlength
        exact instructionLength_of_fixed hop' (by omega)
  · -- No site touches the bytes of the instruction, and its length is told from these alone.
    refine instructionLength_of_take hn (eq_of_getElem? fun k hk => h.keep k fun s hs hk' => ?_)
    rcases h.site s hs with hbefore | ⟨-, op₀, -, hvisited, -⟩
    · omega
    · rw [continueFrom_cons hn] at hvisited
      rcases List.mem_cons.1 hvisited with heq | htail
      · obtain ⟨rfl, -⟩ := Prod.mk.inj heq
        exact hpc hs
      · have := (visited_inside htail).1
        omega

/-- Behind the instruction at `pc` the rest of the code is replaced at the sites that follow. -/
theorem Replaced.drop {sites : Nat → Prop} {pc n : Nat} {op : UInt8} {rest code' : Bytes}
    (h : Replaced sites pc (op :: rest) code')
    (hn : Walk.instructionLength pc (op :: rest) = .ok n) :
    Replaced sites (pc + n) ((op :: rest).drop n) (code'.drop n) := by
  refine ⟨?_, fun k hk => ?_, fun s hs => ?_⟩
  · rw [List.length_drop, List.length_drop, h.length]
  · rw [List.getElem?_drop, List.getElem?_drop]
    refine h.keep (n + k) fun s hs hk' => hk s hs ?_
    omega
  · rcases h.site s hs with hbefore | ⟨hle, op₀, op', hvisited, hop, hbyte, hop'⟩
    · exact .inl (by omega)
    · rw [continueFrom_cons hn] at hvisited
      rcases List.mem_cons.1 hvisited with heq | htail
      · obtain ⟨rfl, rfl⟩ := Prod.mk.inj heq
        obtain rfl := fixed_of_instructionLength hop hn
        exact .inl (Nat.le_refl _)
      · have hbehind := (visited_inside htail).1
        refine .inr ⟨hbehind, op₀, op', htail, hop, ?_, hop'⟩
        rw [List.getElem?_drop, ← hbyte]
        congr 1
        omega

/-- Where no instruction follows, nothing was replaced. -/
theorem Replaced.eq_of_visited_nil {sites : Nat → Prop} {pc : Nat} {code code' : Bytes}
    (h : Replaced sites pc code code') (hnone : (continueFrom [] pc code).visited = []) :
    code' = code := by
  refine List.ext_getElem? fun k => h.keep k fun s hs hk => ?_
  rcases h.site s hs with hbefore | ⟨-, op, -, hvisited, -⟩
  · omega
  · rw [hnone] at hvisited
    cases hvisited

/-- Replacing visited instructions by others of their length changes no step of the walk. -/
theorem continueFrom_replaced {sites : Nat → Prop} {pc : Nat} {code code' : Bytes}
    (h : Replaced sites pc code code') :
    (continueFrom [] pc code').visited.map Prod.fst =
        (continueFrom [] pc code).visited.map Prod.fst ∧
      (continueFrom [] pc code').fault = (continueFrom [] pc code).fault := by
  induction pc, code using walk_induction generalizing code' with
  | nil pc =>
    rw [h.eq_of_visited_nil (by simp [continueFrom])]
    exact ⟨rfl, rfl⟩
  | error pc op rest e he =>
    rw [h.eq_of_visited_nil (by rw [continueFrom_error he])]
    exact ⟨rfl, rfl⟩
  | step pc op rest n hn ih =>
    have hn' := h.instructionLength hn
    obtain ⟨hvisited, hfault⟩ := ih (h.drop hn)
    cases code' with
    | nil => cases hn'
    | cons op' rest' =>
      rw [continueFrom_cons hn, continueFrom_cons hn', List.map_cons, List.map_cons, hvisited]
      exact ⟨rfl, hfault⟩

end EntityLoom.Walk
