import EntityLoom.Proofs.ClassFile.Consumption

/-!
# Class data delimits itself

A reader that is `SelfDelimiting` takes of some data what it takes of all data that goes on
differently behind it, and where it fails, it came to the end of the data, or it fails however the
data goes on.  Bytes and words are read so, and sequencing keeps it, so it holds of a whole class
whatever tables and lengths it consists of.

The main statement is `ClassFile.parse_delimited`: data that is a class is none with bytes added at
the end or cut off there, and the fault says which of the two it is.
-/

namespace EntityLoom

namespace Reader

variable {α β : Type}

/-! ## Readers that delimit what they take -/

/-- How the reader goes on some data decides how it goes on data that continues it.  What it took it
takes again, and where it failed it fails again, unless it failed for want of data. -/
structure SelfDelimiting (r : Reader α) : Prop where
  takes : Takes r (Reads r)
  fails : ∀ ⦃offset : Nat⦄ ⦃rest : Bytes⦄ ⦃e : FormatError⦄, r.run ⟨offset, rest⟩ = .error e →
    (∃ k ≤ rest.length, e = .unexpectedEnd (offset + k)) ∨
      ∀ more, r.run ⟨offset, rest ++ more⟩ = .error e

theorem SelfDelimiting.pure (a : α) : SelfDelimiting (pure a : Reader α) where
  takes := .pure (.pure a)
  fails := fun _ _ _ hr => by cases hr

theorem SelfDelimiting.throw (e : FormatError) : SelfDelimiting (throw e : Reader α) where
  takes := .throw _ e
  fails := fun _ _ _ hr => by
    cases hr
    exact .inr fun _ => rfl

theorem SelfDelimiting.bind {r : Reader α} {k : α → Reader β} (h : SelfDelimiting r)
    (hk : ∀ a, SelfDelimiting (k a)) : SelfDelimiting (r >>= k) where
  takes := h.takes.bind fun _ a ha => (hk a).takes.mono fun _ _ hb => ha.bind hb
  fails := by
    intro offset rest e hr
    rw [StateT.run_bind, bind_eq_error] at hr
    rcases hr with hfirst | ⟨⟨a, c⟩, hfirst, hsecond⟩
    · refine (h.fails hfirst).imp_right fun hmore more => ?_
      rw [StateT.run_bind, hmore more]
      rfl
    · obtain ⟨bs, hrest, hreads⟩ := h.takes hfirst
      replace hrest : rest = bs ++ c.rest := hrest
      -- The second reader starts behind the bytes that the first one took.
      have hcursor : c = ⟨offset + bs.length, c.rest⟩ := by
        have hagain := hreads offset c.rest
        rw [← hrest, hfirst] at hagain
        exact (Prod.mk.inj (Except.ok.inj hagain)).2
      rw [hcursor] at hsecond
      rcases (hk a).fails hsecond with ⟨n, hn, rfl⟩ | hmore
      · refine .inl ⟨bs.length + n, ?_, by rw [Nat.add_assoc]⟩
        rw [hrest, List.length_append]
        exact Nat.add_le_add_left hn _
      · refine .inr fun more => ?_
        rw [hrest, List.append_assoc, StateT.run_bind, hreads offset]
        exact hmore more

/-- A reader after which nothing more is taken. -/
theorem SelfDelimiting.map {r : Reader α} (h : SelfDelimiting r) (g : α → β) :
    SelfDelimiting (do return g (← r)) :=
  h.bind fun a => .pure (g a)

/-! ## Bytes and words -/

/-- A reader that takes the written form of its answer, and fails only where the data ends. -/
theorem SelfDelimiting.of_written {r : Reader α} {write : α → Bytes} (htakes : TakesWritten r write)
    (hreads : ∀ a, Reads r (write a) a)
    (hfails : ∀ offset rest e, r.run ⟨offset, rest⟩ = .error e → e = .unexpectedEnd offset) :
    SelfDelimiting r where
  takes := htakes.mono fun _ a hbs => hbs ▸ hreads a
  fails := fun offset rest e hr => .inl ⟨0, Nat.zero_le _, hfails offset rest e hr⟩

theorem selfDelimiting_byte : SelfDelimiting byte := by
  refine .of_written takes_byte reads_byte fun offset rest e hr => ?_
  cases rest with
  | nil => exact (Except.error.inj hr).symm
  | cons b rest => cases hr

theorem selfDelimiting_word16 : SelfDelimiting word16 := by
  refine .of_written takes_word16 reads_word16 fun offset rest e hr => ?_
  match rest with
  | [] | [_] => exact (Except.error.inj hr).symm
  | _ :: _ :: _ => cases hr

theorem selfDelimiting_word32 : SelfDelimiting word32 := by
  refine .of_written takes_word32 reads_word32 fun offset rest e hr => ?_
  match rest with
  | [] | [_] | [_, _] | [_, _, _] => exact (Except.error.inj hr).symm
  | _ :: _ :: _ :: _ :: _ => cases hr

/-- A word of 64 bits may be cut between its halves. -/
theorem selfDelimiting_word64 : SelfDelimiting word64 :=
  selfDelimiting_word32.bind fun hi => selfDelimiting_word32.map (Bytes.word64 hi)

theorem selfDelimiting_bytes (n : Nat) : SelfDelimiting (bytes n) where
  takes := (takes_bytes n).mono fun _ bs ⟨hbs, hlen⟩ => by
    rw [hbs, ← hlen]
    exact reads_bytes bs
  fails := by
    intro offset rest e hr
    unfold bytes at hr
    simp only [StateT.run] at hr
    split at hr
    · cases hr
    · exact .inl ⟨0, Nat.zero_le _, (Except.error.inj hr).symm⟩

/-! ## Tables -/

theorem selfDelimiting_repeated {item : Reader α} (h : SelfDelimiting item) (n : Nat)
    (acc : List α) : SelfDelimiting (repeated item acc n) := by
  induction n generalizing acc with
  | zero => exact .pure _
  | succ n ih => exact h.bind fun x => ih (x :: acc)

theorem selfDelimiting_counted {item : Reader α} (h : SelfDelimiting item) :
    SelfDelimiting (counted item) :=
  selfDelimiting_word16.bind fun n => selfDelimiting_repeated h n.toNat []

end Reader

open Reader (SelfDelimiting selfDelimiting_byte selfDelimiting_word16 selfDelimiting_word32
  selfDelimiting_word64 selfDelimiting_counted)

theorem Attribute.selfDelimiting : SelfDelimiting Attribute.read :=
  selfDelimiting_word16.bind fun name => selfDelimiting_word32.bind fun length =>
    (Reader.selfDelimiting_bytes length.toNat).map (Attribute.mk name)

theorem Member.selfDelimiting : SelfDelimiting Member.read :=
  selfDelimiting_word16.bind fun access => selfDelimiting_word16.bind fun name =>
    selfDelimiting_word16.bind fun descriptor =>
      (selfDelimiting_counted Attribute.selfDelimiting).map (Member.mk access name descriptor)

/-! ## Constants -/

namespace Constant

theorem selfDelimiting_pair (make : UInt16 → UInt16 → Constant) :
    SelfDelimiting (readPair make) :=
  selfDelimiting_word16.bind fun i => selfDelimiting_word16.map (make i)

theorem selfDelimiting_operands (tag : UInt8) (index : UInt16) :
    SelfDelimiting (readOperands tag index) := by
  unfold readOperands
  split
  · exact selfDelimiting_word16.bind fun n => (Reader.selfDelimiting_bytes n.toNat).map utf8
  all_goals
    first
    | exact selfDelimiting_word16.map _
    | exact selfDelimiting_word32.map _
    | exact selfDelimiting_word64.map _
    | exact selfDelimiting_pair _
    | exact selfDelimiting_byte.bind fun kind => selfDelimiting_word16.map (methodHandle kind)
    | exact .throw _

theorem selfDelimiting (index : UInt16) : SelfDelimiting (read index) :=
  selfDelimiting_byte.bind fun tag => selfDelimiting_operands tag index

end Constant

namespace Pool

theorem selfDelimiting_constants (n : Nat) (p : Pool) : SelfDelimiting (readConstants n p) := by
  fun_induction readConstants n p with
  | case1 p hlt ih => exact (Constant.selfDelimiting _).bind fun c => ih c
  | case2 p hge => exact .pure p

theorem selfDelimiting : SelfDelimiting read :=
  selfDelimiting_word16.bind fun n => selfDelimiting_constants n.toNat .empty

end Pool

/-! ## Classes -/

namespace ClassFile

theorem selfDelimiting : SelfDelimiting read := by
  refine selfDelimiting_word32.bind fun found => ?_
  split
  · refine selfDelimiting_word16.bind fun minor => selfDelimiting_word16.bind fun major => ?_
    refine Pool.selfDelimiting.bind fun pool => selfDelimiting_word16.bind fun access => ?_
    refine selfDelimiting_word16.bind fun this => selfDelimiting_word16.bind fun super => ?_
    refine (selfDelimiting_counted selfDelimiting_word16).bind fun interfaces => ?_
    refine (selfDelimiting_counted Member.selfDelimiting).bind fun fields => ?_
    refine (selfDelimiting_counted Member.selfDelimiting).bind fun methods => ?_
    exact (selfDelimiting_counted Attribute.selfDelimiting).map _
  · -- Data with another number at its start is refused before its versions are read.
    exact .throw (.invalidMagic found)

/-- Data that is a class is taken off the front of any data. -/
theorem reads_of_parse {data : Bytes} {c : ClassFile} (h : parse data = .ok c) :
    Reader.Reads read data c := by
  obtain ⟨offset, hrun⟩ := run_of_parse h
  obtain ⟨bs, hbs, hreads⟩ := selfDelimiting.takes hrun
  replace hbs : data = bs := hbs.trans (List.append_nil bs)
  exact hbs ▸ hreads

theorem parse_append {data : Bytes} {c : ClassFile} (h : parse data = .ok c) {suffix : Bytes}
    (hne : suffix ≠ []) : parse (data ++ suffix) = .error (.trailingBytes suffix.length) := by
  unfold parse Cursor.start
  rw [reads_of_parse h]
  exact if_neg hne

/-- What is left of a class whose end was cut off is refused for want of data. -/
theorem parse_cut {front back : Bytes} {c : ClassFile} (h : parse (front ++ back) = .ok c)
    (hne : back ≠ []) : ∃ k ≤ front.length, parse front = .error (.unexpectedEnd k) := by
  have hwhole := reads_of_parse h 0 []
  rw [List.append_nil] at hwhole
  cases hfront : read.run ⟨0, front⟩ with
  | ok answer =>
    -- A class at the front would leave the rest of the data, which the whole class takes.
    obtain ⟨d, rest⟩ := answer
    obtain ⟨bs, hbs, hreads⟩ := selfDelimiting.takes hfront
    replace hbs : front = bs ++ rest.rest := hbs
    rw [hbs, List.append_assoc, hreads] at hwhole
    have hleft := congrArg Cursor.rest (Prod.mk.inj (Except.ok.inj hwhole)).2
    exact absurd (List.append_eq_nil_iff.1 hleft).2 hne
  | error e =>
    rcases selfDelimiting.fails hfront with ⟨k, hk, rfl⟩ | hmore
    · refine ⟨k, hk, ?_⟩
      unfold parse Cursor.start
      rw [hfront, Nat.zero_add]
    · rw [hmore back] at hwhole
      cases hwhole

/-- Data that is a class delimits itself.  With bytes added behind it, it is refused for just these
bytes; cut off anywhere, it is refused for want of data, at a place that is not beyond the cut. -/
theorem parse_delimited {data : Bytes} {c : ClassFile} (h : parse data = .ok c) :
    (∀ suffix, suffix ≠ [] → parse (data ++ suffix) = .error (.trailingBytes suffix.length)) ∧
      ∀ front, front <+: data → front ≠ data →
        ∃ k ≤ front.length, parse front = .error (.unexpectedEnd k) := by
  refine ⟨fun suffix hne => parse_append h hne, ?_⟩
  rintro front ⟨back, rfl⟩ hne
  refine parse_cut h fun hnil => hne ?_
  rw [hnil, List.append_nil]

/-- A class whose last constant is a long, with a byte behind it and cut within the lower half of the
long. -/
theorem parse_delimited_overrun :
    parse (Sample.overrun ++ [0]) = .error (.trailingBytes 1) ∧
      ∃ k ≤ 24, parse (Sample.overrun.take 24) = .error (.unexpectedEnd k) := by
  have hparse : ∃ c, parse Sample.overrun = .ok c ∧ c.thisClass = 2 := by decide +kernel
  obtain ⟨c, hc, -⟩ := hparse
  obtain ⟨hadded, hcut⟩ := parse_delimited hc
  exact ⟨hadded [0] (by decide), hcut _ (List.take_prefix 24 _) (by decide)⟩

end ClassFile

end EntityLoom
