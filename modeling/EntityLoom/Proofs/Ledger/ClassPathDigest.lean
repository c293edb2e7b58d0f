import EntityLoom.Ledger.Settings
import EntityLoom.Proofs.Sorted
import EntityLoom.Proofs.Text.Utf8
import Mathlib.Data.String.Basic

/-!
# What the digest of a class path tells apart

Settings hold a digest of the keys of a class path: they are sorted, repetitions are dropped, and each
is put on a line of its own.  So the order of the keys and how often they come does not matter.  But
a key can have line feeds in it, and then it reads like several keys.

`WeaveSettings.classPathDigest_eq_iff` finds two class paths, whose listings are no collision of
SHA-256, to have one digest exactly if their listings have the same lines.  Where no key has a line
feed that is: exactly if they have the same keys.
-/

namespace EntityLoom

/-! ## Hexadecimal spelling -/

namespace Bytes

/-- The two digits of a byte. -/
def hexPair (b : UInt8) : List Char :=
  [hexDigit (b.toNat / 16), hexDigit (b.toNat % 16)]

theorem toList_toHex (bs : Bytes) : (toHex bs).toList = bs.flatMap hexPair := by
  have hfold : ∀ (bs : Bytes) (out : String),
      (bs.foldl (fun out b => (out.push (hexDigit (b.toNat / 16))).push (hexDigit (b.toNat % 16)))
        out).toList = out.toList ++ bs.flatMap hexPair := by
    intro bs
    induction bs with
    | nil => simp
    | cons b bs ih =>
      intro out
      rw [List.foldl_cons, ih, List.flatMap_cons]
      simp [hexPair]
  exact hfold bs ""

theorem hexDigit_inj : ∀ m n : Fin 16, hexDigit m = hexDigit n → m = n := by
  decide

theorem hexPair_inj {a b : UInt8} (h : hexPair a = hexPair b) : a = b := by
  have ha := a.toNat_lt
  have hb := b.toNat_lt
  obtain ⟨hhigh, hlow⟩ := List.cons.inj h
  have hhigh' := hexDigit_inj ⟨a.toNat / 16, by omega⟩ ⟨b.toNat / 16, by omega⟩ hhigh
  have hlow' := hexDigit_inj ⟨a.toNat % 16, by omega⟩ ⟨b.toNat % 16, by omega⟩ (List.cons.inj hlow).1
  have hdiv : a.toNat / 16 = b.toNat / 16 := congrArg Fin.val hhigh'
  have hmod : a.toNat % 16 = b.toNat % 16 := congrArg Fin.val hlow'
  exact UInt8.toNat_inj.1 (by omega)

theorem toHex_inj {xs ys : Bytes} (h : toHex xs = toHex ys) : xs = ys := by
  have hpairs : xs.flatMap hexPair = ys.flatMap hexPair := by
    rw [← toList_toHex, h, toList_toHex]
  clear h
  induction xs generalizing ys with
  | nil =>
    cases ys with
    | nil => rfl
    | cons y ys => simp [hexPair] at hpairs
  | cons x xs ih =>
    cases ys with
    | nil => simp [hexPair] at hpairs
    | cons y ys =>
      rw [List.flatMap_cons, List.flatMap_cons] at hpairs
      obtain ⟨hhead, hrest⟩ := List.append_inj hpairs rfl
      rw [hexPair_inj hhead, ih hrest]

end Bytes

namespace Sha256

/-- Two different byte strings have one digest. -/
def Collide (x y : Bytes) : Prop :=
  x ≠ y ∧ digest x = digest y

end Sha256

/-! ## Lines -/

namespace WeaveSettings

variable {keys keys' : List String}

/-- Two class paths have the same keys, in whatever order and however often. -/
def SameKeys (keys keys' : List String) : Prop :=
  ∀ key, key ∈ keys ↔ key ∈ keys'

/-- The lines of the listing of a class path.  A key with line feeds has several. -/
def lines (keys : List String) : List (List Char) :=
  (sortBy (· ≤ ·) keys).eraseReps.flatMap fun key => key.toList.splitOn '\n'

/-- The lines of a listing are read off it: each ends in a line feed, and nothing follows the last. -/
theorem splitOn_listing (keys : List String) :
    (listing keys).toList.splitOn '\n' = lines keys ++ [[]] := by
  have hsplit : ∀ sorted : List String,
      (String.join (sorted.map (· ++ "\n"))).toList.splitOn '\n' =
        (sorted.flatMap fun key => key.toList.splitOn '\n') ++ [[]] := by
    intro sorted
    induction sorted with
    | nil => rfl
    | cons key sorted ih =>
      have hkey : (String.join ((key :: sorted).map (· ++ "\n"))).toList =
          key.toList ++ '\n' :: (String.join (sorted.map (· ++ "\n"))).toList := by
        simp [String.toList_join]
      rw [hkey, List.splitOn, List.splitOnP_append_cons _ _ (by simp), ← List.splitOn,
        ← List.splitOn, ih, List.flatMap_cons, List.append_assoc]
  exact hsplit _

/-- A listing says as much as its lines. -/
theorem listing_eq_iff : listing keys = listing keys' ↔ lines keys = lines keys' := by
  constructor
  · intro h
    have hsplit := splitOn_listing keys
    rw [h, splitOn_listing] at hsplit
    exact (List.append_cancel_right hsplit).symm
  · intro h
    have hsplit : (listing keys).toList.splitOn '\n' = (listing keys').toList.splitOn '\n' := by
      rw [splitOn_listing, splitOn_listing, h]
    have hjoin := congrArg ['\n'].intercalate hsplit
    rw [List.intercalate_splitOn, List.intercalate_splitOn] at hjoin
    exact String.toList_inj.1 hjoin

theorem sorted_eq_iff :
    (sortBy (· ≤ ·) keys).eraseReps = (sortBy (· ≤ ·) keys').eraseReps ↔ SameKeys keys keys' :=
  eraseReps_sortBy_eq_iff fun _ _ => decide_eq_true_iff

/-- The order of keys and their repetitions do not matter. -/
theorem SameKeys.listing_eq (h : SameKeys keys keys') : listing keys = listing keys' := by
  rw [listing, sorted_eq_iff.2 h, listing]

/-- Keys without line feeds are the lines. -/
theorem lines_eq_of_forall (h : ∀ key ∈ keys, '\n' ∉ key.toList) :
    lines keys = (sortBy (· ≤ ·) keys).eraseReps.map String.toList := by
  unfold lines
  rw [List.map_eq_flatMap]
  refine List.flatMap_congr fun key hkey => ?_
  refine List.splitOnP_eq_singleton fun c hc => ?_
  have hkeys : key ∈ keys := mem_sortBy.1 (mem_eraseReps.1 hkey)
  rw [beq_eq_false_iff_ne]
  exact fun e => h key hkeys (e ▸ hc)

/-- Where no key has a line feed, a listing says as much as the set of its keys. -/
theorem listing_eq_iff_sameKeys (h : ∀ key ∈ keys, '\n' ∉ key.toList)
    (h' : ∀ key ∈ keys', '\n' ∉ key.toList) : listing keys = listing keys' ↔ SameKeys keys keys' := by
  refine ⟨fun hlisting => ?_, SameKeys.listing_eq⟩
  have hlines := listing_eq_iff.1 hlisting
  rw [lines_eq_of_forall h, lines_eq_of_forall h'] at hlines
  exact sorted_eq_iff.1 (List.map_injective_iff.2 (fun _ _ => String.toList_inj.1) hlines)

/-! ## Digests -/

/-- The bytes that are digested. -/
def listingBytes (keys : List String) : Bytes :=
  (listing keys).toUTF8.toList

theorem listingBytes_eq_iff : listingBytes keys = listingBytes keys' ↔ listing keys = listing keys' := by
  constructor
  · intro h
    rw [← Text.Utf8.decodeLossy_encode (listing keys), ← Text.Utf8.decodeLossy_encode (listing keys')]
    exact congrArg Text.Utf8.decodeLossy h
  · intro h
    rw [listingBytes, h, listingBytes]

/-- What is digested is the same for class paths with one digest, if it is no collision. -/
theorem digest_eq_iff (hcollide : ¬Sha256.Collide (listingBytes keys) (listingBytes keys')) :
    Sha256.hexDigest (listingBytes keys) = Sha256.hexDigest (listingBytes keys') ↔
      listing keys = listing keys' := by
  refine Iff.trans ⟨fun h => ?_, fun h => congrArg Sha256.hexDigest h⟩ listingBytes_eq_iff
  by_contra hne
  exact hcollide ⟨hne, Bytes.toHex_inj h⟩

/-- Class paths with the same keys have one digest, whatever else is kept in the settings.  If their
listings are no collision, two class paths have one digest exactly where the listings have the same
lines.  Among keys without line feeds that is where the keys are the same. -/
theorem classPathDigest_eq_iff (modelDigest modelDigest' : String) (targetMajor targetMajor' : UInt16)
    (xmlTransient xmlTransient' : Bool) (keys keys' : List String) :
    (SameKeys keys keys' →
      (ofClassPath modelDigest targetMajor xmlTransient keys).classPathDigest =
        (ofClassPath modelDigest' targetMajor' xmlTransient' keys').classPathDigest) ∧
    (¬Sha256.Collide (listingBytes keys) (listingBytes keys') →
      ((ofClassPath modelDigest targetMajor xmlTransient keys).classPathDigest =
          (ofClassPath modelDigest' targetMajor' xmlTransient' keys').classPathDigest ↔
        lines keys = lines keys') ∧
      ((∀ key ∈ keys ++ keys', '\n' ∉ key.toList) →
        ((ofClassPath modelDigest targetMajor xmlTransient keys).classPathDigest =
            (ofClassPath modelDigest' targetMajor' xmlTransient' keys').classPathDigest ↔
          SameKeys keys keys'))) := by
  have hdigest : ∀ m t x (keys : List String), (ofClassPath m t x keys).classPathDigest =
      Sha256.hexDigest (listingBytes keys) := fun _ _ _ _ => rfl
  rw [hdigest, hdigest]
  refine ⟨fun hsame => ?_, fun hcollide => ⟨?_, fun hlines => ?_⟩⟩
  · rw [listingBytes_eq_iff.2 hsame.listing_eq]
  · rw [digest_eq_iff hcollide, listing_eq_iff]
  · obtain ⟨hkeys, hkeys'⟩ := List.forall_mem_append.1 hlines
    rw [digest_eq_iff hcollide, listing_eq_iff_sameKeys hkeys hkeys']

/-- One key with a line feed reads like two, so the digest does not tell the class paths apart. -/
theorem classPathDigest_eq_iff_spread :
    ¬Sha256.Collide (listingBytes ["a\nb"]) (listingBytes ["a", "b"]) ∧
      (ofClassPath "" 52 false ["a\nb"]).classPathDigest =
        (ofClassPath "" 52 false ["a", "b"]).classPathDigest ∧
      ¬SameKeys ["a\nb"] ["a", "b"] := by
  have hlines : lines ["a\nb"] = lines ["a", "b"] := by decide +kernel
  have hcollide : ¬Sha256.Collide (listingBytes ["a\nb"]) (listingBytes ["a", "b"]) :=
    fun hcollide => hcollide.1 (listingBytes_eq_iff.2 (listing_eq_iff.2 hlines))
  obtain ⟨-, hdigest⟩ := classPathDigest_eq_iff "" "" 52 52 false false ["a\nb"] ["a", "b"]
  refine ⟨hcollide, (hdigest hcollide).1.2 hlines, fun hsame => ?_⟩
  exact absurd ((hsame "a").2 List.mem_cons_self) (by decide)

end WeaveSettings

end EntityLoom
