import BrbFramework.Data.HashTableV2

/-!
# The keys that a look-up of a `HashTableV2` finds

The default comparison compares as many bytes as the key that is looked up has, and only a
table with `key_match_sz` compares the sizes too.

`itemFind_wholeKeys_iff` says for which keys that makes no difference: those before whose
whole key no other key with the same first bytes stands in the bucket.
-/

namespace BrbData

open Handler Linked Runs List

namespace HashTableV2

/-- The table with a value of `flags.key_match_sz`. -/
def withMatchSz (s : HashTableV2) (flag : Bool) : HashTableV2 :=
  { s with setup := { s.setup with keyMatchSz := flag } }

/-- The items in the lists of the buckets. Nothing is said of their keys: behind the
`key.sz` bytes of a key its memory may go on. -/
structure Content (chains : Nat → List Nat) (s : HashTableV2) : Prop where
  list : ∀ id, arenaFindByID s.arena id = true → IsList s.links (s.buckets id).list (chains id)
  data : ∀ id, ∀ x ∈ chains id, (s.links x).data = some x
  added : ∀ id, (chains id).length ≤ s.added

/-- The items that a look-up of a key walks over. -/
def walked (s : HashTableV2) (chains : Nat → List Nat) (key : List UInt8) : List Nat :=
  if arenaFindByID s.arena (s.setup.home key) then chains (s.setup.home key) else []

/-- The first bytes of an item's key are the key that is looked up. -/
def Agrees (s : HashTableV2) (key : List UInt8) (x : Nat) : Prop :=
  keyCmpFuncDefault (s.items x) key key.length = true

/-- An item's key is the key that is looked up, in all its bytes. -/
def WholeKey (s : HashTableV2) (key : List UInt8) (x : Nat) : Prop :=
  (s.items x).keySz = key.length ∧ (s.items x).keyPtr.take (s.items x).keySz = key

instance (s : HashTableV2) (key : List UInt8) (x : Nat) : Decidable (WholeKey s key x) :=
  inferInstanceAs (Decidable (_ ∧ _))

/-- A look-up finds the same, with the sizes compared and without, and it is an item with
the whole key. -/
def FindsWholeKeys (s : HashTableV2) (key : List UInt8) : Prop :=
  ∃ r, (∀ flag, Ends (itemFind key key.length) (s.withMatchSz flag)
      (fun r' t => r' = r ∧ t = s.withMatchSz flag) fun _ _ => False) ∧
    ∀ x, r = some x → WholeKey s key x

/-- Wherever an item only agrees with the key, one with the whole key stands before it. -/
def Unshadowed (s : HashTableV2) (key : List UInt8) (xs : List Nat) : Prop :=
  ∀ pre x post, xs = pre ++ x :: post → Agrees s key x → ¬WholeKey s key x →
    ∃ y ∈ pre, WholeKey s key y

variable {s : HashTableV2} {chains : Nat → List Nat} {key : List UInt8} {x : Nat}

theorem wholeKey_iff : WholeKey s key x ↔ (s.items x).keySz = key.length ∧ Agrees s key x := by
  unfold WholeKey Agrees keyCmpFuncDefault
  apply and_congr_right
  intro hsz
  rw [hsz, take_length, beq_iff_eq]

theorem found_withMatchSz (hcmp : s.setup.keyCmp = keyCmpFuncDefault) (flag : Bool) :
    found (s.withMatchSz flag) key x = true ↔
      Agrees s key x ∧ (flag = true → (s.items x).keySz = key.length) := by
  unfold found withMatchSz Agrees
  dsimp only
  rw [hcmp]
  cases flag <;> simp [and_comm]

theorem find?_eq_find?_iff {α : Type} {p q : α → Bool} (hpq : ∀ a, q a = true → p a = true)
    (l : List α) :
    l.find? p = l.find? q ↔
      ∀ pre a post, l = pre ++ a :: post → p a = true → q a = false → ∃ b ∈ pre, q b = true := by
  induction l with
  | nil => simp
  | cons a l ih =>
      cases hq : q a with
      | true =>
          rw [find?_cons_of_pos (hpq a hq), find?_cons_of_pos hq]
          apply iff_of_true rfl
          intro pre b post hl _ hb
          cases pre with
          | nil =>
              obtain ⟨rfl, -⟩ := List.cons.inj hl
              exact absurd hq (by simp [hb])
          | cons c pre =>
              obtain ⟨rfl, -⟩ := List.cons.inj hl
              exact ⟨a, mem_cons_self, hq⟩
      | false =>
          rw [find?_cons_of_neg (p := q) (by simp [hq])]
          cases hp : p a with
          | true =>
              rw [find?_cons_of_pos hp]
              apply iff_of_false
              · intro heq
                have hfound := find?_some heq.symm
                rw [hq] at hfound
                cases hfound
              · intro h
                obtain ⟨b, hb, -⟩ := h [] a l rfl hp hq
                cases hb
          | false =>
              rw [find?_cons_of_neg (p := p) (by simp [hp]), ih]
              constructor
              · intro h pre b post hl hpb hqb
                cases pre with
                | nil =>
                    obtain ⟨rfl, -⟩ := List.cons.inj hl
                    rw [hp] at hpb
                    cases hpb
                | cons c pre =>
                    obtain ⟨rfl, htail⟩ := List.cons.inj hl
                    obtain ⟨d, hd, hqd⟩ := h pre b post htail hpb hqb
                    exact ⟨d, mem_cons_of_mem _ hd, hqd⟩
              · intro h pre b post hl hpb hqb
                obtain ⟨d, hd, hqd⟩ := h (a :: pre) b post (by rw [hl]; rfl) hpb hqb
                rcases mem_cons.1 hd with rfl | hd
                · rw [hq] at hqd
                  cases hqd
                · exact ⟨d, hd, hqd⟩

/-! ## The look-up -/

theorem Content.withMatchSz (h : Content chains s) (flag : Bool) :
    Content chains (s.withMatchSz flag) where
  list := h.list
  data := h.data
  added := h.added

theorem Models.content {p : Setup} {live : List (Nat × List UInt8)} (h : Models p live s) :
    Content (p.chain live) s where
  list id hid := by
    rw [find_eq_inUse h.shape.roomy] at hid
    exact (h.shape.bucket id (allocated_of_inUse hid) (h.active id hid)).2
  data id x hx := by
    obtain ⟨k, hk, -⟩ := mem_chain.1 hx
    exact (h.shape.items _ hk).2.2.2
  added _ := Nat.le_trans length_chain_le h.shape.added

theorem itemFind_finds (h : Content chains s) :
    Ends (itemFind key key.length) s
      (fun r t => r = (walked s chains key).find? (found s key) ∧ t = s) fun _ _ => False := by
  rw [itemFind, ends_bind, ends_get]
  dsimp only
  rw [← Setup.home, walked]
  cases hfind : arenaFindByID s.arena (s.setup.home key) with
  | false =>
      simp only [Bool.not_false, if_true, Bool.false_eq_true, if_false]
      exact ⟨rfl, rfl⟩
  | true =>
      have halloc : allocated s.arena (s.setup.home key) = true :=
        allocated_of_inUse (by
          rw [arenaFindByID, Bool.and_eq_true] at hfind
          exact hfind.2)
      have hlist := h.list _ hfind
      simp only [Bool.not_true, Bool.false_eq_true, if_false, if_true]
      rw [ends_bind, ends_bucket halloc]
      by_cases hnil : chains (s.setup.home key) = []
      · have hhead : (s.buckets (s.setup.home key)).list.head = none := hlist.head_none.2 hnil
        simp only [hhead, Option.isNone_none, if_true, hnil]
        exact ⟨rfl, rfl⟩
      · have hhead : (s.buckets (s.setup.home key)).list.head ≠ none :=
          fun hnone => hnil (hlist.head_none.1 hnone)
        rw [if_neg (by simpa using hhead), bucketWalk, ends_bind, ends_bucket halloc, ends_bind,
          ends_get, hlist.head]
        refine (bucketWalkLoop_ends hlist.chain (h.data _) (h.added _)).imp ?_
        rintro r t ⟨rfl, rfl⟩
        exact ⟨rfl, rfl⟩

theorem findsWholeKeys_iff (h : Content chains s) (hcmp : s.setup.keyCmp = keyCmpFuncDefault) :
    FindsWholeKeys s key ↔
      (walked s chains key).find? (found (s.withMatchSz false) key) =
        (walked s chains key).find? (found (s.withMatchSz true) key) := by
  have hends : ∀ flag, Ends (itemFind key key.length) (s.withMatchSz flag)
      (fun r t => r = (walked s chains key).find? (found (s.withMatchSz flag) key) ∧
        t = s.withMatchSz flag) fun _ _ => False :=
    fun flag => itemFind_finds (h.withMatchSz flag)
  constructor
  · rintro ⟨r, hr, -⟩
    have heq : ∀ flag, (walked s chains key).find? (found (s.withMatchSz flag) key) = r := by
      intro flag
      obtain ⟨r', t, hrun, hr', -⟩ := (hends flag).returns
      have hboth := hr flag
      rw [Ends, hrun] at hboth
      rw [← hr', hboth.1]
    rw [heq, heq]
  · intro heq
    refine ⟨(walked s chains key).find? (found (s.withMatchSz true) key),
      fun flag => (hends flag).imp ?_, fun x hx => ?_⟩
    · rintro r t ⟨rfl, rfl⟩
      refine ⟨?_, rfl⟩
      cases flag
      · exact heq
      · rfl
    · obtain ⟨hagrees, hsz⟩ := (found_withMatchSz hcmp true).1 (find?_some hx)
      exact wholeKey_iff.2 ⟨hsz rfl, hagrees⟩

/-- **Look-ups compare whole keys only where no key stands in the way.**  The item that is
found does not depend on `key_match_sz`, and has the whole key, just where no item that
only agrees with the key stands before the first with the whole key. -/
theorem itemFind_wholeKeys_iff (h : Content chains s) (hcmp : s.setup.keyCmp = keyCmpFuncDefault)
    (key : List UInt8) : FindsWholeKeys s key ↔ Unshadowed s key (walked s chains key) := by
  rw [findsWholeKeys_iff h hcmp, find?_eq_find?_iff]
  · apply forall_congr'
    intro pre
    apply forall_congr'
    intro x
    simp only [← Bool.not_eq_true, found_withMatchSz hcmp, wholeKey_iff]
    grind
  · intro x hx
    exact (found_withMatchSz hcmp false).2 ⟨((found_withMatchSz hcmp true).1 hx).1, by simp⟩

/-- The keys `key` and `keybdo`, which the default hash function puts into one bucket. -/
def keyBytes : List UInt8 := [107, 101, 121]

def longerBytes : List UInt8 := [107, 101, 121, 98, 100, 111]

/-- The default table with an item that has the longer key. -/
def longerTable : HashTableV2 :=
  (run handle (.live ((new none).get rfl)) [.add 1 none longerBytes]).state

/-- The item with the longer key is found by the shorter one. -/
theorem longer_key_is_found : ¬FindsWholeKeys longerTable keyBytes := by
  rintro ⟨r, hr, hwhole⟩
  have hfind : r = some 1 := (hr false).1.symm
  have hkey := hwhole 1 hfind
  revert hkey
  decide

/-- A table that compares the sizes, after a key and a longer one were added. -/
def bothKeysConfig : HashTableConfig where
  hashfuncCode := 1
  maxBuckets := 7
  hash := none
  keyCmp := none
  keyMatchSz := true
  itemCheckDup := false

def bothKeysOps : List Op := [.add 1 none longerBytes, .add 2 none keyBytes]

def bothKeys : HashTableV2 :=
  (run handle (.live ((new (some bothKeysConfig)).get rfl)) bothKeysOps).state

theorem bothKeys_content :
    Content (bothKeys.setup.chain [(2, keyBytes), (1, longerBytes)]) bothKeys :=
  (run_keeps bothKeysConfig rfl rfl rfl bothKeysOps (by decide)).safe.2.1.content

theorem itemFind_wholeKeys_iff_bothKeys :
    FindsWholeKeys bothKeys keyBytes ↔
      Unshadowed bothKeys keyBytes
        (walked bothKeys (bothKeys.setup.chain [(2, keyBytes), (1, longerBytes)]) keyBytes) :=
  itemFind_wholeKeys_iff bothKeys_content rfl keyBytes

end HashTableV2

end BrbData
