import LibPosix.MqueueOpening
import LibPosix.Memory

/-! The names of message queues as bytes: what `mq_open` accepts, what it copies into the name
field of a queue object, and what a later comparison with that field says. -/
namespace LibPosix.MqueueNames
open Program Trace Mqueue MqueueCalls MqueueRegistry MqueueOpening Memory
variable {T : Type} [DecidableEq T]

/-- The size of the field `name` of `mqd_internal_t`. -/
def POSIX_MQUEUE_NAME_SZ : ℕ := 16

def cells (name : CString) : List UInt8 := name.bytes ++ [0]

def strcpy (m : ℕ → UInt8) (dst : Ptr) (src : CString) : ℕ → UInt8 := store m dst (cells src)

/-- Whether `strcmp` of the rest of a string with what is at an address returns 0. -/
def strcmp (m : ℕ → UInt8) : List UInt8 → Ptr → Bool
  | [], p => m p = 0
  | b :: bs, p => b = m p && strcmp m bs (p + 1)

/-- A name in its field: the copy stays inside the field, so that no other field is written, and
as long as the field is not written again exactly that name compares equal to it. -/
structure Apart (name : CString) : Prop where
  fits : (cells name).length ≤ POSIX_MQUEUE_NAME_SZ
  outside : ∀ m p a, a < p ∨ p + POSIX_MQUEUE_NAME_SZ ≤ a → strcpy m p name a = m a
  compares : ∀ m m' p other, (∀ i < POSIX_MQUEUE_NAME_SZ, m' (p + i) = strcpy m p name (p + i)) →
    (strcmp m' (CString.bytes other) p = true ↔ other = name)

/-- The names the documentation allows. -/
structure Acceptable (name : CString) : Prop where
  slash : name.bytes.head? = some 47
  rest : name.bytes.tail.length ≤ POSIX_NAME_MAX

section Names
variable {name : CString}

theorem validateName_iff : validateName name = true ↔ Acceptable name := by
  unfold validateName
  split_ifs with h
  · exact iff_of_false (by simp) fun ha => h ha.slash
  · simp only [ne_eq, not_not] at h
    have hne : name.bytes ≠ [] := fun hnil => by simp [hnil] at h
    have hpos : 0 < name.bytes.length := List.length_pos_iff.mpr hne
    rw [decide_eq_true_eq]
    constructor
    · intro hlen
      refine ⟨h, ?_⟩
      rw [List.length_tail]
      omega
    · intro ha
      have hrest := ha.rest
      rw [List.length_tail] at hrest
      omega

theorem strcmp_iff {m : ℕ → UInt8} {p : Ptr} {bs os : List UInt8} (hbs : (0 : UInt8) ∉ bs)
    (hos : (0 : UInt8) ∉ os) (hm : load m p (bs.length + 1) = bs ++ [0]) :
    strcmp m os p = true ↔ os = bs := by
  induction bs generalizing os p with
  | nil =>
    have h0 : m p = 0 := by simpa [load] using hm
    cases os with
    | nil => simp [strcmp, h0]
    | cons o os =>
      have ho : o ≠ 0 := fun heq => hos (by simp [heq])
      simp [strcmp, h0, ho]
  | cons b bs ih =>
    have hsplit : load m p (bs.length + 2) = m p :: load m (p + 1) (bs.length + 1) := by
      simp only [load, List.range_succ_eq_map (n := bs.length + 1), List.map_cons, List.map_map]
      simp [Function.comp_def, Nat.add_assoc, Nat.add_comm 1]
    rw [List.length_cons, hsplit, List.cons_append, List.cons.injEq] at hm
    obtain ⟨hb, hrest⟩ := hm
    have hb0 : b ≠ 0 := fun heq => hbs (by simp [heq])
    cases os with
    | nil => simp [strcmp, hb, hb0]
    | cons o os =>
      have hos' : (0 : UInt8) ∉ os := fun hmem => hos (by simp [hmem])
      have hbs' : (0 : UInt8) ∉ bs := fun hmem => hbs (by simp [hmem])
      simp [strcmp, hb, ih hbs' hos' hrest]

theorem cstring_eq_iff {a b : CString} : a = b ↔ a.bytes = b.bytes := by
  cases a with
  | mk as ha =>
    cases b with
    | mk bs hb => simp

theorem length_cells (name : CString) : (cells name).length = name.bytes.length + 1 := by
  simp [cells]

/-- Short names are kept apart, and long ones run over the end of the field. -/
theorem apart_iff : Apart name ↔ name.bytes.length < POSIX_MQUEUE_NAME_SZ := by
  constructor
  · intro h
    have hfits := h.fits
    rw [length_cells] at hfits
    omega
  · intro hlen
    have hfits : (cells name).length ≤ POSIX_MQUEUE_NAME_SZ := by
      rw [length_cells]
      omega
    refine ⟨hfits, fun m p a ha => store_outside (by omega), fun m m' p other hm => ?_⟩
    rw [cstring_eq_iff]
    apply strcmp_iff name.noNul other.noNul
    apply List.ext_getElem
    · simp
    · intro i hi hi'
      have hic : i < (cells name).length := hi'
      have hcell : strcpy m p name (p + i) = (cells name)[i] := store_inside hic
      rw [← hm i (by omega)] at hcell
      have hload : (load m' p (name.bytes.length + 1))[i] = m' (p + i) := by simp [load]
      rw [hload]
      exact hcell

end Names

/-- The names that a successful `mq_open` of this name copies are kept apart. -/
def StoresApart (P : Platform) (t : T) (name : CString) : Prop :=
  ∀ (relock : Bool) (c : Env) (s s' : Registry T) (oflag : OFlag) (attr : Option MqAttr) (mq : Ptr)
    (log : List MqOp),
    (mqOpen P name oflag attr).eval (traced (mqExec relock P t c)) (s, []) =
      some (.ok mq, s', log) → ∀ w ∈ nameWrites log, Apart w.2

/-- Names are accepted as documented, but kept apart exactly if they are shorter than the field
they are copied to. -/
theorem names_apart_iff (P : Platform) (t : T) (name : CString) :
    ((validateName name = true ↔ Acceptable name) ∧
      (validateName name = true → StoresApart P t name)) ↔
      validateName name = false ∨ name.bytes.length < POSIX_MQUEUE_NAME_SZ := by
  constructor
  · rintro ⟨-, h⟩
    by_cases hv : validateName name = true
    · obtain ⟨s', log, hrun, hreq⟩ := mqOpen_creates P t none hv rfl
      have hwrite : (1, name) ∈ nameWrites log := by simp [hreq.name]
      exact .inr (apart_iff.mp (h hv _ _ _ _ _ _ _ _ hrun _ hwrite))
    · exact .inl (Bool.eq_false_iff.mpr hv)
  · intro h
    refine ⟨validateName_iff, fun hv relock c s s' oflag attr mq log hrun w hw => ?_⟩
    have hlen : name.bytes.length < POSIX_MQUEUE_NAME_SZ := h.resolve_left (by simp [hv])
    rcases recorded (mqOpen_requests attr) hrun mq rfl with hnone | hreq
    · rw [hnone.2] at hw
      simp [nameWrites] at hw
    · rw [hreq.name] at hw
      obtain rfl : w = (mq, name) := by simpa [nameWrites] using hw
      exact apart_iff.mpr hlen

def nameSixteen : CString := ⟨47 :: List.replicate 15 97, by decide⟩

/-- The terminator of an accepted name of 16 bytes is written behind the field. -/
theorem mqOpen_overruns : validateName nameSixteen = true ∧ ∃ s' log,
    (mqOpen platform1000 nameSixteen ⟨true, false, false⟩ none).eval
      (traced (mqExec true platform1000 () ⟨some 1, some 2, 5, true⟩)) (emptyRegistry, []) =
        some (.ok 1, s', log) ∧
    (1, nameSixteen) ∈ nameWrites log ∧
    strcpy (fun _ => 255) 0 nameSixteen POSIX_MQUEUE_NAME_SZ = 0 ∧ ¬ Apart nameSixteen := by
  have hv : validateName nameSixteen = true := by decide
  obtain ⟨s', log, hrun, hreq⟩ := mqOpen_creates platform1000 () none hv rfl
  refine ⟨hv, s', log, hrun, by simp [hreq.name], by decide, ?_⟩
  rw [apart_iff]
  decide

end LibPosix.MqueueNames
