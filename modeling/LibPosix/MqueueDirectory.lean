import LibPosix.MqueueCustody
import LibPosix.Linearizability

/-! The list of message queues as its users see it: a directory of entries, on which a call acts
at once. The threads reach it through a lock, which they hold for several requests; whatever the
order of these, the calls act like the calls on the directory. -/
namespace LibPosix.MqueueDirectory
open Program ThreadPool Transition TimeUtils Kernel MachineInt Mqueue MqueueCalls
open MqueueRegistry (MqCall MqRes mqCode)
open PoolHistory Linearizability
variable {T : Type} [DecidableEq T]

/-- What the directory knows of a queue; not how many messages are in it. -/
structure Entry where
  name : CString
  flags : OFlag
  maxmsg : ℕ
  msgsize : ℕ
  openCount : ℕ
  pendingUnlink : Bool
  deriving DecidableEq, Repr

namespace Entry

def ofObj (o : MqdInternal) : Entry :=
  ⟨o.name, o.flags, o.q.sz, o.q.isz, o.openCount, o.pendingUnlink⟩

def opened (e : Entry) : Entry := { e with openCount := (e.openCount + 1) % 2 ^ 16 }

/-- The last descriptor marks the queue. -/
def closed (e : Entry) : Entry :=
  { e with
    openCount := e.openCount - 1
    pendingUnlink := e.pendingUnlink || e.openCount ≤ 1 }

def marked (e : Entry) : Entry := { e with pendingUnlink := true }

end Entry

/-- The queues that can be found, in the order in which they are searched. -/
@[ext] structure Directory where
  entries : List (Ptr × Entry)
  distinct : (entries.map Prod.fst).Nodup

namespace Directory

def lookup (q : Ptr) (d : Directory) : Option Entry :=
  (d.entries.find? fun e => e.1 = q).map Prod.snd

def find (name : CString) (d : Directory) : Option (Ptr × Entry) :=
  d.entries.find? fun e => name = e.2.name

theorem map_update_fst (q : Ptr) (f : Entry → Entry) (es : List (Ptr × Entry)) :
    (es.map fun e => if e.1 = q then (e.1, f e.2) else e).map Prod.fst = es.map Prod.fst := by
  rw [List.map_map]
  refine List.map_congr_left fun e _ => ?_
  by_cases h : e.1 = q
  · simp [h]
  · simp [h]

def update (q : Ptr) (f : Entry → Entry) (d : Directory) : Directory where
  entries := d.entries.map fun e => if e.1 = q then (e.1, f e.2) else e
  distinct := by
    rw [map_update_fst]
    exact d.distinct

def remove (q : Ptr) (d : Directory) : Directory where
  entries := d.entries.filter fun e => e.1 ≠ q
  distinct := d.distinct.sublist (List.filter_sublist.map Prod.fst)

end Directory

/-- A call that moves a message finds the queue, or reports what is wrong with the buffer or the
descriptor. What else it reports is not up to the directory. -/
def moves (q msgPtr : Ptr) (d : Directory) (v : MqRes) : Prop :=
  if msgPtr % 4 ≠ 0 then v = .status .EINVAL
  else if d.lookup q = none then v = .status .EBADF
  else v ≠ .status .EBADF

/-- The calls on the directory. A queue that `mq_open` creates is not entered. -/
def serve (P : Platform) : MqCall → Directory → MqRes → Directory → Prop
  | .mqOpen name oflag attr, d, v, d' =>
    if validateName name = true ∧ validateAttr attr = true then
      match d.find name with
      | some (q, _) =>
        if oflag.O_EXCL = true ∧ oflag.O_CREAT = true then v = .status .EEXIST ∧ d' = d
        else v = .desc q ∧ d' = d.update q Entry.opened
      | none => d' = d ∧
          (v = .status .ENOENT ∨ oflag.O_CREAT = true ∧ ∃ q, v = .desc q ∧ d.lookup q = none)
    else v = .status .EINVAL ∧ d' = d
  | .mqClose q, d, v, d' =>
    match d.lookup q with
    | some e => v = .status .ok ∧
        d' = if e.openCount ≤ 1 ∧ e.pendingUnlink = true then d.remove q
          else d.update q Entry.closed
    | none => v = .status .EBADF ∧ d' = d
  | .mqUnlink name, d, v, d' =>
    if validateName name = true then
      match d.find name with
      | some (q, e) => v = .status .ok ∧
          d' = if e.openCount = 0 then d.remove q else d.update q Entry.marked
      | none => v = .status .ENOENT ∧ d' = d
    else v = .status .ENAMETOOLONG ∧ d' = d
  | .mqGetattr q, d, v, d' => d' = d ∧
      match d.lookup q with
      | some e => ∃ n : ℕ, v = .attr ⟨e.flags, signed P.longBits e.maxmsg,
          signed P.longBits e.msgsize, signed P.longBits n⟩
      | none => v = .status .EBADF
  | .mqTimedsend q msgPtr _ _, d, v, d' | .mqTimedreceive q msgPtr _ _, d, v, d'
  | .mqSend q msgPtr _, d, v, d' | .mqReceive q msgPtr _, d, v, d' => d' = d ∧ moves q msgPtr d v

def directory (P : Platform) : Object Directory T MqCall MqRes := fun _ => serve P

/-- What is known of the value of a call when it takes effect. A call that has found the queue for
its message goes on without the lock. -/
inductive Outcome where
  | value (v : MqRes)
  | moving

def Outcome.fits : Outcome → MqRes → Prop
  | .value w, v => w = v
  | .moving, v => v ≠ .status .EBADF

def outcomes (P : Platform) : Object Directory T MqCall Outcome :=
  fun _ k d w d' => ∀ v, w.fits v → serve P k d v d'

omit [DecidableEq T] in
theorem outcomes_refine (P : Platform) :
    Refines (outcomes P : Object Directory T MqCall Outcome) (directory P) Outcome.fits where
  resolvable := by
    intro t k d w d' _
    cases w with
    | value v => exact ⟨v, rfl⟩
    | moving => exact ⟨.status .ok, by simp [Outcome.fits]⟩
  serves h hv := h _ hv

structure Catalogue where
  allq : List Ptr
  entry : Ptr → Entry

namespace Catalogue

def entries (c : Catalogue) : List (Ptr × Entry) := c.allq.map fun q => (q, c.entry q)

def find (name : CString) (c : Catalogue) : Option Ptr :=
  c.allq.find? fun q => name = (c.entry q).name

@[simps] def unlink (q : Ptr) (c : Catalogue) : Catalogue := { c with allq := c.allq.erase q }

@[simps] def set (q : Ptr) (e : Entry) (c : Catalogue) : Catalogue :=
  { c with entry := Function.update c.entry q e }

theorem set_self (q : Ptr) (c : Catalogue) : c.set q (c.entry q) = c := by
  simp [set]

theorem set_set (q : Ptr) (e e' : Entry) (c : Catalogue) : (c.set q e).set q e' = c.set q e' := by
  simp [set]

theorem find_mem {name : CString} {q : Ptr} {c : Catalogue} (h : c.find name = some q) :
    q ∈ c.allq := List.mem_of_find?_eq_some h

theorem entries_set_of_notMem {q : Ptr} {e : Entry} {c : Catalogue} (h : q ∉ c.allq) :
    (c.set q e).entries = c.entries := by
  refine List.map_congr_left fun p hp => ?_
  have hne : p ≠ q := fun heq => h (heq ▸ hp)
  simp [set, hne]

section Directory
variable {c c' : Catalogue} {d : Directory}

theorem entries_fst (c : Catalogue) : c.entries.map Prod.fst = c.allq := by
  simp [entries, Function.comp_def]

theorem nodup (h : d.entries = c.entries) : c.allq.Nodup := by
  rw [← entries_fst, ← h]
  exact d.distinct

def toDirectory (c : Catalogue) (h : c.allq.Nodup) : Directory where
  entries := c.entries
  distinct := by
    rw [entries_fst]
    exact h

theorem lookup_eq (h : d.entries = c.entries) (q : Ptr) :
    d.lookup q = if q ∈ c.allq then some (c.entry q) else none := by
  rw [Directory.lookup, h, entries, List.find?_map, Option.map_map]
  have hfind : c.allq.find? ((fun e : Ptr × Entry => decide (e.1 = q)) ∘ fun p => (p, c.entry p)) =
      if q ∈ c.allq then some q else none := find_self q c.allq
  rw [hfind]
  split_ifs
  · rfl
  · rfl

theorem find_eq (h : d.entries = c.entries) (name : CString) :
    d.find name = (c.find name).map fun q => (q, c.entry q) := by
  rw [Directory.find, h, entries, List.find?_map]
  rfl

theorem entries_update (h : d.entries = c.entries) (q : Ptr) (f : Entry → Entry) :
    (d.update q f).entries = (c.set q (f (c.entry q))).entries := by
  simp only [Directory.update, h, entries, List.map_map, set_allq]
  refine List.map_congr_left fun p _ => ?_
  by_cases hp : p = q
  · subst p
    simp
  · simp [hp]

theorem entries_remove (h : d.entries = c.entries) (q : Ptr) :
    (d.remove q).entries = (c.unlink q).entries := by
  simp only [Directory.remove, h, entries, unlink_allq, unlink_entry, (nodup h).erase_eq_filter,
    List.filter_map]
  congr 1
  refine List.filter_congr fun p _ => ?_
  by_cases hp : p = q
  · simp [hp]
  · simp [hp]

end Directory

end Catalogue

def catalogueOf (s : Registry T) : Catalogue := ⟨s.allq, fun q => .ofObj (s.obj q)⟩

/-- What a thread knows of its call: the catalogue as it was when it took the lock and as it is
now, as long as it holds the lock; the queue it has allocated, the one it has taken from the list
to free it, and what is known of the value it will return, once its call has taken effect. -/
structure Local where
  call : MqCall
  held : Option (Catalogue × Catalogue)
  fresh : Option Ptr
  doomed : Option Ptr
  done : Option Outcome

def Local.write (g : Catalogue → Catalogue) (l : Local) : Local :=
  { l with held := l.held.map fun x => (x.1, g x.2) }

def attrOf (P : Platform) (o : MqdInternal) : MqAttr :=
  ⟨o.flags, signed P.longBits o.q.sz, signed P.longBits o.q.isz, signed P.longBits o.q.n⟩

/-- `mq_getattr` takes effect when it reads the object. -/
def Local.read (P : Platform) (o : MqdInternal) (l : Local) : Local :=
  match l.call with
  | .mqGetattr _ => { l with done := some (.value (.attr (attrOf P o))) }
  | _ => l

def checked (q msgPtr : Ptr) (b : Catalogue) : Outcome :=
  if msgPtr % 4 ≠ 0 then .value (.status .EINVAL)
  else if q ∈ b.allq then .moving
  else .value (.status .EBADF)

/-- The outcome of a call that takes effect when it gives the lock back. `mq_getattr` has done so
before if it has found the queue. -/
def verdict (l : Local) (b : Catalogue) : Option Outcome :=
  match l.call with
  | .mqOpen name oflag _ =>
    match b.find name with
    | some q => some (.value (if oflag.O_EXCL = true ∧ oflag.O_CREAT = true then .status .EEXIST
        else .desc q))
    | none => some (.value (match l.fresh with
      | some q => .desc q
      | none => .status .ENOENT))
  | .mqClose q => some (.value (.status (if q ∈ b.allq then .ok else .EBADF)))
  | .mqUnlink name => some (.value (.status (if (b.find name).isSome then .ok else .ENOENT)))
  | .mqGetattr q => if q ∈ b.allq then none else some (.value (.status .EBADF))
  | .mqTimedsend q msgPtr _ _ | .mqTimedreceive q msgPtr _ _
  | .mqSend q msgPtr _ | .mqReceive q msgPtr _ => some (checked q msgPtr b)

def Conforms (P : Platform) (k : MqCall) (b : Catalogue) (v : MqRes) (n : Catalogue) : Prop :=
  ∀ d d', d.entries = b.entries → d'.entries = n.entries → serve P k d v d'

def serving (P : Platform) : Protocol MqOp MqAns Local where
  safe
    | _, .llInit | _, .mutInit | _, .storeInited => False
    | l, .muxLock => l.held = none
    | l, .muxUnlock => ∃ b n, l.held = some (b, n) ∧
        match verdict l b with
        | some w => l.done = none ∧ ∀ v, w.fits v → Conforms P l.call b v n
        | none => n.entries = b.entries
    | l, .load q => ∀ p, l.call = .mqGetattr p →
        l.done = none ∧ q = p ∧ ∃ c, l.held = some (c, c) ∧ p ∈ c.allq
    | l, .storeOpenCount _ _ | l, .storePendingUnlink _ | l, .lleDel _ | l, .clearQueue _
    | l, .storeName _ _ | l, .storeFlags _ _ | l, .mqInit _ _ _ _ => l.held ≠ none
    | l, .free type q => type = .POSIX_MQUEUE → l.doomed = some q
    | _, _ => True
  after
    | l, .loadInited, r, l' => r = true ∧ l' = l
    | l, .muxLock, _, l' => ∃ c, c.allq.Nodup ∧ l' = { l with held := some (c, c) }
    | l, .muxUnlock, _, l' => ∃ b n, l.held = some (b, n) ∧
        l' = { l with held := none, done := (verdict l b).or l.done }
    | l, .allq, r, l' => l' = l ∧ ∀ b n, l.held = some (b, n) → r = n.allq
    | l, .load q, r, l' => (∀ b n, l.held = some (b, n) → Entry.ofObj r = n.entry q) ∧
        l' = l.read P r
    | l, .storeOpenCount q m, _, l' =>
      l' = l.write fun c => c.set q { c.entry q with openCount := m }
    | l, .storePendingUnlink q, _, l' => l' = l.write fun c => c.set q (c.entry q).marked
    | l, .lleDel q, _, l' => l' = { l.write (·.unlink q) with doomed := some q }
    | l, .allocQueue, r, l' => l' = { l with fresh := r } ∧
        ∀ q b n, r = some q → l.held = some (b, n) → q ∉ n.allq
    | l, .clearQueue q, _, l' => l' = l.write fun c => c.set q (.ofObj zeroQueue)
    | l, .storeName q name, _, l' => l' = l.write fun c => c.set q { c.entry q with name := name }
    | l, .storeFlags q flags, _, l' =>
      l' = l.write fun c => c.set q { c.entry q with flags := flags }
    | l, .mqInit q isz _ sz, _, l' =>
      l' = l.write fun c => c.set q { c.entry q with maxmsg := sz, msgsize := isz }
    | l, _, _, l' => l' = l

section Calls
variable {P : Platform} {l : Local} {b c : Catalogue} {q : Ptr} {name : CString}

theorem read_eq (hk : ∀ p, l.call ≠ .mqGetattr p) (o : MqdInternal) : l.read P o = l := by
  unfold Local.read
  split
  · next p hp => exact absurd hp (hk p)
  · rfl

theorem write_held (hc : l.held = some (b, c)) (g : Catalogue → Catalogue) :
    (l.write g).held = some (b, g c) := by
  simp [Local.write, hc]

theorem mqCheckInit_serving : mqCheckInit.Obeys (serving P) l fun _ l' => l' = l := by
  simp [mqCheckInit, serving]

theorem mqExtractLocked_serving (hc : l.held = some (b, c)) :
    (mqExtractLocked q).Obeys (serving P) l
      fun r l' => l' = l ∧ r = if q ∈ c.allq then some q else none := by
  simp [mqExtractLocked, serving, hc, find_self]

/-- Reading an object tells the holder of the lock its entry. -/
theorem load_serving (hk : ∀ p, l.call ≠ .mqGetattr p) (hc : l.held = some (b, c))
    {post : MqdInternal → Local → Prop} (h : ∀ o, Entry.ofObj o = c.entry q → post o l) :
    (ask (.load q)).Obeys (serving P) l post := by
  rw [Prog.obeys_request]
  refine ⟨fun p hp => absurd hp (hk p), ?_⟩
  intro o l' hl'
  obtain ⟨hentry, rfl⟩ := hl'
  rw [read_eq hk]
  exact h o (hentry b c hc)

theorem mqFindFrom_serving (hk : ∀ p, l.call ≠ .mqGetattr p) (hc : l.held = some (b, c))
    (ps : List Ptr) : (mqFindFrom name ps).Obeys (serving P) l
      fun r l' => l' = l ∧ r = ps.find? fun p => name = (c.entry p).name := by
  induction ps with
  | nil => simp [mqFindFrom]
  | cons p ps ih =>
    rw [mqFindFrom, Prog.obeys_bind]
    refine load_serving hk hc fun o ho => ?_
    have hname : o.name = (c.entry p).name := congrArg Entry.name ho
    simp only [Prog.obeys_ite, hname, Prog.pure_eq, Prog.obeys_ret]
    refine ⟨fun heq => ⟨trivial, by simp [heq]⟩, fun hne => ?_⟩
    rw [List.find?_cons_of_neg (by simpa using hne)]
    exact ih

theorem mqFindLocked_serving (hk : ∀ p, l.call ≠ .mqGetattr p) (hc : l.held = some (b, c)) :
    (mqFindLocked name).Obeys (serving P) l fun r l' => l' = l ∧ r = c.find name := by
  rw [mqFindLocked, Prog.obeys_bind, Prog.obeys_request]
  refine ⟨trivial, ?_⟩
  intro r l' hl'
  obtain ⟨rfl, hr⟩ := hl'
  obtain rfl := hr b c hc
  exact mqFindFrom_serving hk hc c.allq

theorem mqFree_serving (hd : l.doomed = some q) (hk : ∀ p, l.call ≠ .mqGetattr p) :
    (mqFree q).Obeys (serving P) l fun _ l' => l' = l := by
  rw [mqFree, Prog.obeys_bind, Prog.obeys_request]
  refine ⟨fun p hp => absurd hp (hk p), ?_⟩
  intro o l' hl'
  obtain ⟨-, rfl⟩ := hl'
  rw [read_eq hk]
  simp [serving, hd]

def Catalogue.counted (q : Ptr) (c : Catalogue) : Catalogue :=
  if (c.entry q).openCount = 0 then
    if (c.entry q).pendingUnlink = true then c.unlink q else c.set q (c.entry q).marked
  else c

theorem closeCounted_serving (hk : ∀ p, l.call ≠ .mqGetattr p) (hc : l.held = some (b, c)) :
    (MqueueCustody.closeCounted q).Obeys (serving P) l fun removed l' =>
      removed = decide ((c.entry q).openCount = 0 ∧ (c.entry q).pendingUnlink = true) ∧
        l' = { l with
          held := some (b, c.counted q)
          doomed := if removed = true then some q else l.doomed } := by
  rw [MqueueCustody.closeCounted, Prog.obeys_bind]
  refine load_serving hk hc fun o ho => ?_
  have hcount : o.openCount = (c.entry q).openCount := congrArg Entry.openCount ho
  have hpending : o.pendingUnlink = (c.entry q).pendingUnlink := congrArg Entry.pendingUnlink ho
  simp only [hcount, hpending, Prog.obeys_ite, Prog.obeys_bind, Prog.obeys_request, Prog.pure_eq,
    Prog.obeys_ret]
  have hheld : l.held ≠ none := by simp [hc]
  refine ⟨fun hz => ⟨fun hp => ⟨hheld, ?_⟩, fun hp => ⟨hheld, ?_⟩⟩, fun hz => ?_⟩
  · intro _ l' hl'
    cases hl'
    simp [hz, hp, Local.write, Catalogue.counted, hc]
  · intro _ l' hl'
    cases hl'
    simp [hz, hp, Local.write, Catalogue.counted, hc]
  · simp [hz, Catalogue.counted, ← hc]

theorem mqCloseLocked_serving (hk : ∀ p, l.call ≠ .mqGetattr p) (hc : l.held = some (b, c)) :
    (mqCloseLocked q).Obeys (serving P) l fun removed l' =>
      removed = decide ((c.entry q).openCount ≤ 1 ∧ (c.entry q).pendingUnlink = true) ∧
        l' = { l with
          held := some (b, (c.set q { c.entry q with
            openCount := (c.entry q).openCount - 1 }).counted q)
          doomed := if removed = true then some q else l.doomed } := by
  rw [MqueueCustody.mqCloseLocked_eq, Prog.obeys_bind]
  refine load_serving hk hc fun o ho => ?_
  have hcount : o.openCount = (c.entry q).openCount := congrArg Entry.openCount ho
  rw [hcount]
  by_cases hpos : (c.entry q).openCount > 0
  · simp only [if_pos hpos, Prog.obeys_bind, Prog.obeys_request]
    refine ⟨by simp [serving, hc], ?_⟩
    intro _ l' hl'
    cases hl'
    refine Prog.Obeys.mono (closeCounted_serving hk (write_held hc _)) ?_
    intro removed l' h
    obtain ⟨rfl, rfl⟩ := h
    have hone : (c.entry q).openCount - 1 = 0 ↔ (c.entry q).openCount ≤ 1 := by omega
    simp [Local.write, hone]
  · have hzero : (c.entry q).openCount = 0 := by omega
    have hset : c.set q { c.entry q with openCount := (c.entry q).openCount - 1 } = c := by
      have he : { c.entry q with openCount := (c.entry q).openCount - 1 } = c.entry q := by
        generalize c.entry q = e at hzero
        obtain ⟨name, flags, maxmsg, msgsize, openCount, pendingUnlink⟩ := e
        simp only at hzero
        simp [hzero]
      rw [he, Catalogue.set_self]
    simp only [if_neg hpos, hset]
    apply (closeCounted_serving hk hc).mono
    intro removed l' h
    obtain ⟨rfl, rfl⟩ := h
    simp [hzero]

theorem counted_entries (hn : c.allq.Nodup) :
    ((c.set q { c.entry q with openCount := (c.entry q).openCount - 1 }).counted q).entries =
      if (c.entry q).openCount ≤ 1 ∧ (c.entry q).pendingUnlink = true then (c.unlink q).entries
      else (c.set q (c.entry q).closed).entries := by
  have hmem : q ∉ (c.unlink q).allq := fun hm => (hn.mem_erase_iff.mp hm).1 rfl
  by_cases hle : (c.entry q).openCount ≤ 1
  · have hz : (c.entry q).openCount - 1 = 0 := by omega
    by_cases hp : (c.entry q).pendingUnlink = true
    · rw [if_pos ⟨hle, hp⟩, ← Catalogue.entries_set_of_notMem (e := { c.entry q with
        openCount := (c.entry q).openCount - 1 }) hmem]
      simp [Catalogue.counted, hz, hp, Catalogue.set, Catalogue.unlink]
    · rw [if_neg fun h => hp h.2]
      simp [Catalogue.counted, hz, hp, Catalogue.set_set, Entry.closed, Entry.marked, hle]
  · have hz : (c.entry q).openCount - 1 ≠ 0 := by omega
    rw [if_neg fun h => hle h.1]
    simp [Catalogue.counted, hz, Entry.closed, hle]

theorem close_conforms (hmem : q ∈ c.allq) :
    Conforms P (.mqClose q) c (.status .ok)
      ((c.set q { c.entry q with openCount := (c.entry q).openCount - 1 }).counted q) := by
  intro d d' hd hd'
  rw [counted_entries (Catalogue.nodup hd)] at hd'
  simp only [serve, Catalogue.lookup_eq hd, if_pos hmem, true_and]
  apply Directory.ext
  rw [hd']
  split_ifs
  · exact (Catalogue.entries_remove hd q).symm
  · exact (Catalogue.entries_update hd q Entry.closed).symm

/-- Giving the lock back is the moment at which a call takes effect. -/
theorem unlock_settled (hc : l.held = some (b, c)) (hd : l.done = none) {w : Outcome}
    (hw : verdict l b = some w) (hok : ∀ v, w.fits v → Conforms P l.call b v c)
    {post : Unit → Local → Prop} (h : post () { l with held := none, done := some w }) :
    (ask .muxUnlock).Obeys (serving P) l post := by
  rw [Prog.obeys_request]
  refine ⟨⟨b, c, hc, ?_⟩, ?_⟩
  · rw [hw]
    exact ⟨hd, hok⟩
  · intro _ l' hl'
    obtain ⟨b', n, hb, rfl⟩ := hl'
    obtain ⟨rfl, rfl⟩ := Prod.mk.inj (Option.some.inj (hc.symm.trans hb))
    simpa [hw] using h

theorem unlock_serving (hc : l.held = some (b, c)) (hd : l.done = none) {v : MqRes}
    (hv : verdict l b = some (.value v)) (hok : Conforms P l.call b v c)
    {post : Unit → Local → Prop} (h : post () { l with held := none, done := some (.value v) }) :
    (ask .muxUnlock).Obeys (serving P) l post :=
  unlock_settled hc hd hv (fun _ hw => hw ▸ hok) h

/-- Where a call stands at its end: it has taken effect, with an outcome that the value it returns
fits, or it can still do so. A call that has not given the lock back has not changed the directory. -/
inductive Returned (P : Platform) (k : MqCall) (v : MqRes) (l : Local) : Prop
  | done (hheld : l.held = none) {w : Outcome} (hdone : l.done = some w) (hfits : w.fits v)
  | free (hheld : l.held = none) (hdone : l.done = none) (h : ∀ d, serve P k d v d)
  | held (b n : Catalogue) (hheld : l.held = some (b, n)) (hdone : l.done = none)
      (hsame : n.entries = b.entries) (h : Conforms P k b v n)

theorem mqClose_serving (hk : l.call = .mqClose q) (hl : l.held = none) (hd : l.done = none) :
    (mqClose q).Obeys (serving P) l fun v l' => Returned P (.mqClose q) (.status v) l' := by
  obtain ⟨call, held, fresh, doomed, done⟩ := l
  obtain rfl : call = .mqClose q := hk
  obtain rfl : held = none := hl
  obtain rfl : done = none := hd
  rw [mqClose, Prog.obeys_bind]
  apply mqCheckInit_serving.mono
  rintro - l rfl
  rw [Prog.obeys_bind, Prog.obeys_request]
  refine ⟨rfl, ?_⟩
  rintro - l ⟨c, hn, rfl⟩
  rw [Prog.obeys_bind]
  apply (mqExtractLocked_serving rfl).mono
  rintro r l ⟨rfl, rfl⟩
  by_cases hmem : q ∈ c.allq
  · rw [if_pos hmem, Prog.obeys_bind]
    refine Prog.Obeys.mono (mqCloseLocked_serving (by simp) rfl) ?_
    intro removed l h
    obtain ⟨hremoved, rfl⟩ := h
    rw [Prog.obeys_bind]
    refine unlock_serving rfl rfl (by simp [verdict, hmem]) (close_conforms hmem) ?_
    simp only [Prog.obeys_bind, Prog.obeys_ite, Prog.pure_eq, Prog.obeys_ret]
    constructor
    · intro hr
      refine Prog.Obeys.mono (mqFree_serving (by simp [hr]) (by simp)) ?_
      rintro - l rfl
      exact .done rfl rfl rfl
    · intro _
      exact .done rfl rfl rfl
  · rw [if_neg hmem, Prog.obeys_bind]
    refine unlock_serving rfl rfl (by simp [verdict, hmem]) ?_ (.done rfl rfl rfl)
    intro d d' hd hd'
    simp only [serve, Catalogue.lookup_eq hd, if_neg hmem, true_and]
    exact Directory.ext (hd'.trans hd.symm)

theorem conforms_same {k : MqCall} {v : MqRes} (h : ∀ d, d.entries = c.entries → serve P k d v d) :
    Conforms P k c v c := by
  intro d d' hd hd'
  obtain rfl : d' = d := Directory.ext (hd'.trans hd.symm)
  exact h d' hd

theorem unlink_conforms (hv : validateName name = true) (hf : c.find name = some q) :
    Conforms P (.mqUnlink name) c (.status .ok)
      (if (c.entry q).openCount = 0 then c.unlink q else c.set q (c.entry q).marked) := by
  intro d d' hd hd'
  simp only [serve, if_pos hv, Catalogue.find_eq hd, hf, Option.map_some, true_and]
  apply Directory.ext
  rw [hd']
  split_ifs
  · exact (Catalogue.entries_remove hd q).symm
  · exact (Catalogue.entries_update hd q Entry.marked).symm

theorem mqUnlinkLocked_serving (hk : ∀ p, l.call ≠ .mqGetattr p) (hc : l.held = some (b, c)) :
    (mqUnlinkLocked q).Obeys (serving P) l fun removed l' =>
      removed = decide ((c.entry q).openCount = 0) ∧
        l' = { l with
          held := some (b, if (c.entry q).openCount = 0 then c.unlink q
            else c.set q (c.entry q).marked)
          doomed := if removed = true then some q else l.doomed } := by
  rw [mqUnlinkLocked, Prog.obeys_bind]
  refine load_serving hk hc fun o ho => ?_
  have hcount : o.openCount = (c.entry q).openCount := congrArg Entry.openCount ho
  have hheld : l.held ≠ none := by simp [hc]
  simp only [hcount, Prog.obeys_ite, Prog.obeys_bind, Prog.obeys_request, Prog.pure_eq,
    Prog.obeys_ret]
  constructor
  · intro hz
    refine ⟨hheld, ?_⟩
    intro _ l' hl'
    cases hl'
    simp [hz, Local.write, hc]
  · intro hz
    refine ⟨hheld, ?_⟩
    intro _ l' hl'
    cases hl'
    simp [hz, Local.write, hc]

theorem mqUnlink_serving (hk : l.call = .mqUnlink name) (hl : l.held = none)
    (hd : l.done = none) :
    (mqUnlink name).Obeys (serving P) l fun v l' => Returned P (.mqUnlink name) (.status v) l' := by
  obtain ⟨call, held, fresh, doomed, done⟩ := l
  obtain rfl : call = .mqUnlink name := hk
  obtain rfl : held = none := hl
  obtain rfl : done = none := hd
  rw [mqUnlink, Prog.obeys_bind]
  apply mqCheckInit_serving.mono
  rintro - l rfl
  by_cases hv : validateName name = false
  · rw [if_pos hv]
    exact .free rfl rfl fun d => by simp [serve, hv]
  · rw [if_neg hv, Prog.obeys_bind, Prog.obeys_request]
    refine ⟨rfl, ?_⟩
    rintro - l ⟨c, hn, rfl⟩
    rw [Prog.obeys_bind]
    apply (mqFindLocked_serving (by simp) rfl).mono
    rintro r l ⟨rfl, rfl⟩
    have hname : validateName name = true := by simpa using hv
    cases hf : c.find name with
    | some q =>
      simp only [Prog.obeys_bind]
      refine Prog.Obeys.mono (mqUnlinkLocked_serving (by simp) rfl) ?_
      intro removed l h
      obtain ⟨hremoved, rfl⟩ := h
      refine unlock_serving rfl rfl (by simp [verdict, hf]) (unlink_conforms hname hf) ?_
      simp only [Prog.obeys_bind, Prog.obeys_ite, Prog.pure_eq, Prog.obeys_ret]
      constructor
      · intro hr
        refine Prog.Obeys.mono (mqFree_serving (by simp [hr]) (by simp)) ?_
        rintro - l rfl
        exact .done rfl rfl rfl
      · intro _
        exact .done rfl rfl rfl
    | none =>
      simp only [Prog.obeys_bind]
      refine unlock_serving rfl rfl (by simp [verdict, hf]) ?_ (.done rfl rfl rfl)
      exact conforms_same fun d hd => by simp [serve, hname, Catalogue.find_eq hd, hf]

theorem mqGetattr_serving (hk : l.call = .mqGetattr q) (hl : l.held = none) (hd : l.done = none) :
    (mqGetattr P q).Obeys (serving P) l fun v l' =>
      Returned P (.mqGetattr q) (.of .attr v) l' := by
  obtain ⟨call, held, fresh, doomed, done⟩ := l
  obtain rfl : call = .mqGetattr q := hk
  obtain rfl : held = none := hl
  obtain rfl : done = none := hd
  rw [mqGetattr, Prog.obeys_bind]
  apply mqCheckInit_serving.mono
  rintro - l rfl
  rw [Prog.obeys_bind, Prog.obeys_request]
  refine ⟨rfl, ?_⟩
  rintro - l ⟨c, hn, rfl⟩
  rw [Prog.obeys_bind]
  apply (mqExtractLocked_serving rfl).mono
  rintro r l ⟨rfl, rfl⟩
  by_cases hmem : q ∈ c.allq
  · rw [if_pos hmem, Prog.obeys_bind, Prog.obeys_request]
    refine ⟨fun p hp => ?_, ?_⟩
    · obtain rfl : q = p := by simpa using hp
      exact ⟨rfl, rfl, c, rfl, hmem⟩
    · rintro o l ⟨-, rfl⟩
      rw [Prog.obeys_bind, Prog.obeys_request]
      refine ⟨⟨c, c, rfl, by simp [verdict, Local.read, hmem]⟩, ?_⟩
      rintro - l ⟨b, n, hb, rfl⟩
      obtain ⟨rfl, rfl⟩ : c = b ∧ c = n := by simpa [Local.read] using hb
      have hdone : (verdict (Local.read P o ⟨.mqGetattr q, some (c, c), fresh, doomed, none⟩) c).or
          (Local.read P o ⟨.mqGetattr q, some (c, c), fresh, doomed, none⟩).done =
            some (.value (.attr (attrOf P o))) := by
        simp [verdict, Local.read, hmem]
      exact .done rfl hdone rfl
  · rw [if_neg hmem, Prog.obeys_bind]
    refine unlock_serving rfl rfl (by simp [verdict, hmem, MqRes.of]) ?_ (.done rfl rfl rfl)
    exact conforms_same fun d hd => by simp [serve, Catalogue.lookup_eq hd, hmem, MqRes.of]

theorem open_conforms {oflag : OFlag} {attr : Option MqAttr} (hv : validateName name = true)
    (ha : validateAttr attr = true) (hf : c.find name = some q)
    (hx : ¬ (oflag.O_EXCL = true ∧ oflag.O_CREAT = true)) :
    Conforms P (.mqOpen name oflag attr) c (.desc q)
      (c.set q { c.entry q with openCount := unsigned 16 ((c.entry q).openCount + 1) }) := by
  intro d d' hd hd'
  have hw : unsigned 16 (((c.entry q).openCount : ℤ) + 1) =
      ((c.entry q).openCount + 1) % 2 ^ 16 := by
    simp only [unsigned]
    omega
  simp only [serve, hv, ha, and_self, if_true, Catalogue.find_eq hd, hf, Option.map_some, if_neg hx,
    true_and]
  apply Directory.ext
  rw [hd', hw]
  exact (Catalogue.entries_update hd q Entry.opened).symm

structure Building (k : MqCall) (c : Catalogue) (q : Ptr) (l : Local) : Prop where
  call : l.call = k
  fresh : l.fresh = some q
  done : l.done = none
  held : ∃ n, l.held = some (c, n) ∧ n.allq = c.allq ∧ n.entries = c.entries

theorem Building.holds {k : MqCall} (h : Building k c q l) : l.held ≠ none := by
  obtain ⟨n, hn, -⟩ := h.held
  simp [hn]

theorem Building.write {k : MqCall} (h : Building k c q l) (hq : q ∉ c.allq) {l' : Local}
    {g : Catalogue → Entry} (hl' : l' = l.write fun c => c.set q (g c)) : Building k c q l' := by
  subst hl'
  obtain ⟨n, hn, hallq, hentries⟩ := h.held
  refine ⟨h.call, h.fresh, h.done, n.set q (g n), write_held hn _, hallq, ?_⟩
  rw [Catalogue.entries_set_of_notMem (hallq ▸ hq), hentries]

theorem mqCreateLocked_serving {oflag : OFlag} {attr : Option MqAttr} {defAttr : MqAttr}
    (hk : l.call = .mqOpen name oflag attr) (hv : validateName name = true)
    (ha : validateAttr attr = true) (ho : oflag.O_CREAT = true) (hd : l.done = none)
    (hc : l.held = some (c, c)) (hf : c.find name = none) :
    (mqCreateLocked P name oflag defAttr).Obeys (serving P) l fun v l' =>
      Returned P (.mqOpen name oflag attr) (.of .desc v) l' := by
  have hrefuse (n : Catalogue) (hn : n.entries = c.entries) :
      Conforms P (.mqOpen name oflag attr) c (.status .ENOENT) n := by
    intro d d' hd hd'
    have heq : d' = d := Directory.ext (hd'.trans (hn.trans hd.symm))
    simp [serve, hv, ha, Catalogue.find_eq hd, hf, heq]
  rw [mqCreateLocked, Prog.obeys_bind, Prog.obeys_request]
  refine ⟨trivial, ?_⟩
  rintro r l1 ⟨rfl, hfresh⟩
  cases r with
  -- a failure leaves without unlocking: the call takes effect as it returns
  | none => exact .held c c hc hd rfl (hrefuse c rfl)
  | some q =>
    have hq : q ∉ c.allq := hfresh q c c rfl hc
    have h1 : Building (.mqOpen name oflag attr) c q { l with fresh := some q } :=
      ⟨hk, rfl, hd, c, hc, rfl, rfl⟩
    simp only [Prog.obeys_bind, Prog.obeys_request]
    refine ⟨h1.holds, ?_⟩
    intro _ l2 hl2
    have h2 := h1.write hq hl2
    refine ⟨trivial, ?_⟩
    rintro r l3 rfl
    cases r with
    | none =>
      obtain ⟨n, hn, -, hentries⟩ := h2.held
      exact .held c n hn h2.done hentries (hrefuse n hentries)
    | some buf =>
      simp only [Prog.obeys_bind, Prog.obeys_request, Prog.pure_eq, Prog.obeys_ret]
      refine ⟨trivial, ?_⟩
      rintro - l3 rfl
      refine ⟨trivial, ?_⟩
      rintro - l3 rfl
      refine ⟨h2.holds, ?_⟩
      intro _ l4 hl4
      have h4 := h2.write hq hl4
      refine ⟨h4.holds, ?_⟩
      intro _ l5 hl5
      have h5 := h4.write hq hl5
      refine ⟨trivial, ?_⟩
      rintro - l6 rfl
      refine ⟨h5.holds, ?_⟩
      intro _ l6 hl6
      have h6 := h5.write hq hl6
      refine ⟨h6.holds, ?_⟩
      intro _ l7 hl7
      obtain ⟨hcall, hnew, hdone, n, hn, -, hentries⟩ := h6.write hq hl7
      have hverdict : verdict l7 c = some (.value (.desc q)) := by
        simp [verdict, hcall, hnew, hf]
      have hconf : Conforms P (.mqOpen name oflag attr) c (.desc q) n := by
        intro d d' hd hd'
        have heq : d' = d := Directory.ext (hd'.trans (hentries.trans hd.symm))
        simp [serve, hv, ha, ho, Catalogue.find_eq hd, Catalogue.lookup_eq hd, hf, heq, hq]
      rw [← hcall] at hconf
      have hunlock : (ask .muxUnlock).Obeys (serving P) l7 fun _ l' =>
          Returned P (.mqOpen name oflag attr) (.of .desc (.ok q)) l' :=
        unlock_serving hn hdone hverdict hconf (.done rfl rfl rfl)
      exact hunlock

theorem mqOpen_serving {oflag : OFlag} {attr : Option MqAttr}
    (hk : l.call = .mqOpen name oflag attr) (hl : l.held = none) (hd : l.done = none)
    (hn : l.fresh = none) : (mqOpen P name oflag attr).Obeys (serving P) l fun v l' =>
      Returned P (.mqOpen name oflag attr) (.of .desc v) l' := by
  obtain ⟨call, held, fresh, doomed, done⟩ := l
  obtain rfl : call = .mqOpen name oflag attr := hk
  obtain rfl : held = none := hl
  obtain rfl : done = none := hd
  obtain rfl : fresh = none := hn
  rw [mqOpen, Prog.obeys_bind]
  apply mqCheckInit_serving.mono
  rintro - l rfl
  by_cases hv : validateName name = false
  · rw [if_pos hv]
    exact .free rfl rfl fun d => by simp [serve, hv, MqRes.of]
  by_cases ha : validateAttr attr = false
  · rw [if_neg hv, if_pos ha]
    exact .free rfl rfl fun d => by simp [serve, ha, MqRes.of]
  have hname : validateName name = true := by simpa using hv
  have hattr : validateAttr attr = true := by simpa using ha
  rw [if_neg hv, if_neg ha, Prog.obeys_bind, Prog.obeys_request]
  refine ⟨rfl, ?_⟩
  rintro - l ⟨c, hn, rfl⟩
  rw [Prog.obeys_bind]
  apply (mqFindLocked_serving (by simp) rfl).mono
  rintro r l ⟨rfl, rfl⟩
  cases hf : c.find name with
  | some q =>
    rw [Prog.obeys_ite]
    constructor
    · intro hx
      rw [Prog.obeys_bind]
      refine unlock_serving (v := .status .EEXIST) rfl rfl (by simp [verdict, hf, hx]) ?_
        (.done rfl rfl rfl)
      exact conforms_same fun d hd => by
        simp [serve, hname, hattr, Catalogue.find_eq hd, hf, hx]
    · intro hx
      rw [Prog.obeys_bind]
      refine load_serving (by simp) rfl fun o ho => ?_
      have hcount : o.openCount = (c.entry q).openCount := congrArg Entry.openCount ho
      rw [hcount, Prog.obeys_bind, Prog.obeys_request]
      refine ⟨by simp [serving], ?_⟩
      rintro - l rfl
      rw [Prog.obeys_bind]
      refine unlock_serving rfl rfl ?_ (open_conforms hname hattr hf hx) (.done rfl rfl rfl)
      simp [verdict, Local.write, hf, hx, MqRes.of]
  | none =>
    rw [Prog.obeys_ite]
    constructor
    · intro hcreat
      exact mqCreateLocked_serving rfl hname hattr hcreat rfl rfl hf
    · intro _
      rw [Prog.obeys_bind]
      refine unlock_serving (v := .status .ENOENT) rfl rfl ?_ ?_ (.done rfl rfl rfl)
      · simp [verdict, hf]
      · exact conforms_same fun d hd => by
          simp [serve, hname, hattr, Catalogue.find_eq hd, hf]

theorem getTickTimeout_serving (flags : OFlag) (timeout : Option Timespec) :
    (getTickTimeout P flags timeout 0).Obeys (serving P) l fun conv l' =>
      l' = l ∧ conv.1 ≠ .EBADF := by
  unfold getTickTimeout
  rw [Prog.obeys_ite]
  refine ⟨fun _ => by simp, fun _ => ?_⟩
  cases timeout with
  | none => simp
  | some timeout =>
    rw [Prog.obeys_ite]
    refine ⟨fun _ => by simp, fun _ => ?_⟩
    simp only [Prog.obeys_bind, Prog.obeys_request]
    refine ⟨trivial, ?_⟩
    rintro r l' rfl
    rw [Prog.pure_eq, Prog.obeys_ret]
    refine ⟨rfl, ?_⟩
    split_ifs with h
    · simp
    · rw [not_not.mp h]
      simp

structure MovesMessage (P : Platform) (q msgPtr : Ptr) (k : MqCall) : Prop where
  attr : ∀ p, k ≠ .mqGetattr p
  serves : ∀ d v, moves q msgPtr d v → serve P k d v d
  verdict : ∀ l b, l.call = k → verdict l b = some (checked q msgPtr b)

def buffer : MqCall → Option Ptr
  | .mqTimedsend _ msgPtr _ _ | .mqTimedreceive _ msgPtr _ _
  | .mqSend _ msgPtr _ | .mqReceive _ msgPtr _ => some msgPtr
  | _ => none

theorem movesMessage {k : MqCall} {msgPtr : Ptr} (hq : k.queue = some q)
    (hb : buffer k = some msgPtr) : MovesMessage P q msgPtr k := by
  cases k with
  | mqOpen name oflag attr => cases hb
  | mqClose p => cases hb
  | mqUnlink name => cases hb
  | mqGetattr p => cases hb
  | _ =>
    cases hq
    cases hb
    refine ⟨by simp, fun d v hv => ⟨rfl, hv⟩, ?_⟩
    intro l b hl
    simp [MqueueDirectory.verdict, hl]

theorem moves_of_fits {msgPtr : Ptr} {d : Directory} {v : MqRes} (hd : d.entries = c.entries)
    (hv : (checked q msgPtr c).fits v) : moves q msgPtr d v := by
  unfold moves
  unfold checked at hv
  by_cases ha : msgPtr % 4 ≠ 0
  · rw [if_pos ha] at hv ⊢
    exact hv.symm
  · rw [if_neg ha] at hv ⊢
    rw [Catalogue.lookup_eq hd]
    by_cases hmem : q ∈ c.allq
    · rw [if_pos hmem] at hv
      have hne : v ≠ .status .EBADF := hv
      simpa [hmem] using hne
    · rw [if_neg hmem] at hv
      simpa [hmem] using hv.symm

/-- The call stands after its locked part: it has taken effect, and goes on if it has found its
queue. -/
structure Prepared (k : MqCall) (ret : Status) (l : Local) : Prop where
  call : l.call = k
  held : l.held = none
  done : ∃ w, l.done = some w ∧ if ret = .ok then w = .moving else w.fits (.status ret)

theorem prepareUnlock_serving {k : MqCall} {msgPtr : Ptr} (hm : MovesMessage P q msgPtr k)
    {fresh doomed : Option Ptr} {conv : Status × ℕ}
    (hconv : if conv.1 = .ok then checked q msgPtr c = .moving
      else (checked q msgPtr c).fits (.status conv.1)) :
    (do
      ask .muxUnlock
      return conv : Prog MqOp MqAns (Status × ℕ)).Obeys (serving P)
        ⟨k, some (c, c), fresh, doomed, none⟩ fun conv l' => Prepared k conv.1 l' := by
  rw [Prog.obeys_bind]
  refine unlock_settled rfl rfl (hm.verdict _ c rfl) ?_ ⟨rfl, rfl, _, rfl, hconv⟩
  intro v hv
  exact conforms_same fun d hd => hm.serves d v (moves_of_fits hd hv)

theorem mqPrepare_serving {k : MqCall} {msgPtr : Ptr} (hm : MovesMessage P q msgPtr k)
    (hk : l.call = k) (hl : l.held = none) (hd : l.done = none) (badLen : ℕ → Bool)
    (abstime : Option Timespec) :
    (mqPrepare P q msgPtr badLen abstime).Obeys (serving P) l fun conv l' =>
      Prepared k conv.1 l' := by
  obtain ⟨call, held, fresh, doomed, done⟩ := l
  obtain rfl : call = k := hk
  obtain rfl : held = none := hl
  obtain rfl : done = none := hd
  rw [mqPrepare, Prog.obeys_bind, Prog.obeys_request]
  refine ⟨rfl, ?_⟩
  rintro - l ⟨c, hn, rfl⟩
  rw [Prog.obeys_bind]
  apply (mqExtractLocked_serving rfl).mono
  rintro r l ⟨rfl, rfl⟩
  by_cases ha : msgPtr % 4 = 0
  · by_cases hmem : q ∈ c.allq
    · simp only [if_pos hmem, ha, ne_eq, not_true_eq_false, if_false, reduceCtorEq, if_true,
        Prog.obeys_bind]
      refine load_serving hm.attr rfl fun o _ => ?_
      rw [Prog.pure_eq, Prog.obeys_ret]
      have hfound : checked q msgPtr c = .moving := by simp [checked, ha, hmem]
      by_cases hlen : badLen o.q.isz = true
      · rw [if_pos hlen]
        simp only [reduceCtorEq, if_false]
        exact prepareUnlock_serving hm (by simp [hfound, Outcome.fits])
      · rw [if_neg hlen]
        simp only [if_true, Prog.obeys_bind]
        refine load_serving hm.attr rfl fun o _ => ?_
        apply (getTickTimeout_serving o.flags abstime).mono
        rintro conv l ⟨rfl, hne⟩
        exact prepareUnlock_serving hm (by simp [hfound, Outcome.fits, hne])
    · simp only [if_neg hmem, ha, ne_eq, not_true_eq_false, if_false, reduceCtorEq, if_true]
      exact prepareUnlock_serving hm (by simp [checked, hmem, ha, Outcome.fits])
  · simp only [ne_eq, ha, not_false_eq_true, if_true, reduceCtorEq, if_false]
    exact prepareUnlock_serving hm (by simp [checked, ha, Outcome.fits])

theorem mqFailure_serving (hk : ∀ p, l.call ≠ .mqGetattr p) :
    (mqFailure q).Obeys (serving P) l fun e l' => l' = l ∧ e ≠ .EBADF := by
  rw [mqFailure, Prog.obeys_bind, Prog.obeys_request]
  refine ⟨fun p hp => absurd hp (hk p), ?_⟩
  rintro o l' ⟨-, rfl⟩
  rw [Prog.pure_eq, Prog.obeys_ret, read_eq hk]
  refine ⟨rfl, ?_⟩
  split_ifs
  · simp
  · simp

theorem Prepared.refused {k : MqCall} {ret : Status} (h : Prepared k ret l) (hret : ret ≠ .ok) :
    Returned P k (.status ret) l := by
  obtain ⟨w, hdone, hw⟩ := h.done
  rw [if_neg hret] at hw
  exact .done h.held hdone hw

theorem Prepared.moved {k : MqCall} {v : MqRes} (h : Prepared k .ok l) (hv : v ≠ .status .EBADF) :
    Returned P k v l := by
  obtain ⟨w, hdone, hw⟩ := h.done
  obtain rfl : w = .moving := hw
  exact .done h.held hdone hv

theorem mqTimedsend_serving {k : MqCall} {msgPtr : Ptr} {msgLen : ℕ} {abstime : Option Timespec}
    (hm : MovesMessage P q msgPtr k) (hk : l.call = k) (hl : l.held = none)
    (hd : l.done = none) : (mqTimedsend P q msgPtr msgLen abstime).Obeys (serving P) l
      fun v l' => Returned P k (.status v) l' := by
  rw [mqTimedsend, Prog.obeys_bind]
  apply (mqPrepare_serving hm hk hl hd _ abstime).mono
  intro conv l h
  have hattr : ∀ p, l.call ≠ .mqGetattr p := h.call ▸ hm.attr
  simp only [Prog.obeys_ite, Prog.obeys_bind, Prog.obeys_request, Prog.pure_eq, Prog.obeys_ret]
  constructor
  · intro hok
    rw [hok] at h
    refine ⟨trivial, ?_⟩
    rintro r l rfl
    refine ⟨fun _ => h.moved (by simp), fun _ => ?_⟩
    apply (mqFailure_serving hattr).mono
    rintro e l ⟨rfl, he⟩
    exact h.moved (by simpa using he)
  · exact fun hne => h.refused hne

theorem mqTimedreceive_serving {k : MqCall} {msgPtr : Ptr} {msgLen : ℕ}
    {abstime : Option Timespec} (hm : MovesMessage P q msgPtr k) (hk : l.call = k)
    (hl : l.held = none) (hd : l.done = none) :
    (mqTimedreceive P q msgPtr msgLen abstime).Obeys (serving P) l
      fun v l' => Returned P k (.of .length v) l' := by
  rw [mqTimedreceive, Prog.obeys_bind]
  apply (mqPrepare_serving hm hk hl hd _ abstime).mono
  intro conv l h
  have hattr : ∀ p, l.call ≠ .mqGetattr p := h.call ▸ hm.attr
  simp only [Prog.obeys_ite, Prog.obeys_bind, Prog.obeys_request, Prog.pure_eq, Prog.obeys_ret]
  constructor
  · intro hok
    rw [hok] at h
    refine ⟨trivial, ?_⟩
    rintro r l rfl
    refine ⟨fun _ => ⟨fun p hp => absurd hp (hattr p), ?_⟩, fun _ => ?_⟩
    · rintro o l' ⟨-, rfl⟩
      rw [read_eq hattr]
      exact h.moved (by simp [MqRes.of])
    · apply (mqFailure_serving hattr).mono
      rintro e l ⟨rfl, he⟩
      exact h.moved (by simpa [MqRes.of] using he)
  · exact fun hne => h.refused hne

def Local.start (k : MqCall) : Local := ⟨k, none, none, none, none⟩

theorem mqCode_serving (P : Platform) (k : MqCall) :
    (mqCode P k).Obeys (serving P) (.start k) fun v l => Returned P k v l := by
  cases k with
  | mqOpen name oflag attr =>
    rw [mqCode, Prog.obeys_bind]
    exact mqOpen_serving rfl rfl rfl rfl
  | mqClose q =>
    rw [mqCode, Prog.obeys_bind]
    exact mqClose_serving rfl rfl rfl
  | mqUnlink name =>
    rw [mqCode, Prog.obeys_bind]
    exact mqUnlink_serving rfl rfl rfl
  | mqGetattr q =>
    rw [mqCode, Prog.obeys_bind]
    exact mqGetattr_serving rfl rfl rfl
  | mqTimedsend q msgPtr msgLen abstime =>
    rw [mqCode, Prog.obeys_bind]
    exact mqTimedsend_serving (movesMessage rfl rfl) rfl rfl rfl
  | mqTimedreceive q msgPtr msgLen abstime =>
    rw [mqCode, Prog.obeys_bind]
    exact mqTimedreceive_serving (movesMessage rfl rfl) rfl rfl rfl
  | mqSend q msgPtr msgLen =>
    rw [mqCode, Prog.obeys_bind]
    exact mqTimedsend_serving (movesMessage rfl rfl) rfl rfl rfl
  | mqReceive q msgPtr msgLen =>
    rw [mqCode, Prog.obeys_bind]
    exact mqTimedreceive_serving (movesMessage rfl rfl) rfl rfl rfl

end Calls

abbrev Calls (T : Type) := T → Option (MqCall × Local)

def heldOf (x : Option (MqCall × Local)) : Option (Catalogue × Catalogue) :=
  x.bind fun y => y.2.held

/-- The list holds distinct queues that are in use, and what is about to be freed is not on it. -/
structure Sound (s : Registry T) (f : Calls T) : Prop where
  inited : s.inited = true
  nodup : s.allq.Nodup
  live : ∀ q ∈ s.allq, (PosixObj.POSIX_MQUEUE, q) ∈ s.live
  call : ∀ t k l, f t = some (k, l) → l.call = k
  doomed : ∀ t k l q, f t = some (k, l) → l.doomed = some q → q ∉ s.allq

/-- The directory is the catalogue, except that the changes of the thread that holds the lock are
still to come. -/
structure Guarded (s : Registry T) (d : Directory) (f : Calls T) : Prop where
  owner : ∀ t, heldOf (f t) ≠ none → s.mux.own = some t
  held : ∀ t b n, heldOf (f t) = some (b, n) → d.entries = b.entries ∧ n = catalogueOf s
  free : (∀ t, heldOf (f t) = none) → d.entries = (catalogueOf s).entries

section Steps
variable {P : Platform} {s s' : Registry T} {d d' : Directory} {f : Calls T} {t : T} {k : MqCall}
  {l l' : Local} {q : Ptr} {b c n : Catalogue}

theorem Sound.set (h : Sound s f) {y : Option (MqCall × Local)} (hi : s'.inited = s.inited)
    (hn : s'.allq.Nodup) (hsub : ∀ q ∈ s'.allq, q ∈ s.allq)
    (hlive : ∀ q ∈ s'.allq, (PosixObj.POSIX_MQUEUE, q) ∈ s'.live)
    (hy : ∀ k l, y = some (k, l) → l.call = k ∧ ∀ q, l.doomed = some q → q ∉ s'.allq) :
    Sound s' (Function.update f t y) := by
  refine ⟨hi.trans h.inited, hn, hlive, fun u k l hu => ?_, fun u k l q hu hq => ?_⟩
  · by_cases hut : u = t
    · subst u
      rw [Function.update_self] at hu
      exact (hy k l hu).1
    · rw [Function.update_of_ne hut] at hu
      exact h.call u k l hu
  · by_cases hut : u = t
    · subst u
      rw [Function.update_self] at hu
      exact (hy k l hu).2 q hq
    · rw [Function.update_of_ne hut] at hu
      exact fun hm => h.doomed u k l q hu hq (hsub q hm)

omit [DecidableEq T] in
theorem Guarded.others (h : Guarded s d f) (ht : heldOf (f t) ≠ none) {u : T} (hu : u ≠ t) :
    heldOf (f u) = none := by
  by_contra hn
  exact hu (Option.some.inj ((h.owner u hn).symm.trans (h.owner t ht)))

theorem Guarded.quiet (h : Guarded s d f) {y : Option (MqCall × Local)} (hm : s'.mux = s.mux)
    (hc : catalogueOf s' = catalogueOf s) (hy : heldOf y = heldOf (f t)) :
    Guarded s' d (Function.update f t y) := by
  have hheld (u : T) : heldOf (Function.update f t y u) = heldOf (f u) := by
    by_cases hut : u = t
    · subst u
      simpa using hy
    · rw [Function.update_of_ne hut]
  refine ⟨fun u hu => ?_, fun u b n hu => ?_, fun hall => ?_⟩
  · rw [hm]
    exact h.owner u (hheld u ▸ hu)
  · rw [hc]
    exact h.held u b n (hheld u ▸ hu)
  · rw [hc]
    exact h.free fun u => (hheld u).symm.trans (hall u)

theorem guarded_alone {y : Option (MqCall × Local)} (hal : ∀ u, u ≠ t → heldOf (f u) = none)
    (ho : heldOf y ≠ none → s'.mux.own = some t)
    (hh : ∀ b n, heldOf y = some (b, n) → d'.entries = b.entries ∧ n = catalogueOf s')
    (hf : heldOf y = none → d'.entries = (catalogueOf s').entries) :
    Guarded s' d' (Function.update f t y) := by
  refine ⟨fun u hu => ?_, fun u b n hu => ?_, fun hall => hf (by simpa using hall t)⟩
  · by_cases hut : u = t
    · subst u
      exact ho (by simpa using hu)
    · rw [Function.update_of_ne hut] at hu
      exact absurd (hal u hut) hu
  · by_cases hut : u = t
    · subst u
      exact hh b n (by simpa using hu)
    · rw [Function.update_of_ne hut, hal u hut] at hu
      cases hu

omit [DecidableEq T] in
theorem catalogueOf_modify (q : Ptr) (g : MqdInternal → MqdInternal) :
    catalogueOf (s.modify q g) = (catalogueOf s).set q (.ofObj (g (s.obj q))) := by
  simp only [catalogueOf, Registry.modify, Catalogue.set, Catalogue.mk.injEq, true_and]
  funext p
  by_cases hp : p = q
  · simp [hp]
  · simp [hp]

omit [DecidableEq T] in
theorem catalogueOf_modify_same (q : Ptr) {g : MqdInternal → MqdInternal}
    (hg : ∀ o, Entry.ofObj (g o) = .ofObj o) : catalogueOf (s.modify q g) = catalogueOf s := by
  rw [catalogueOf_modify, hg]
  exact Catalogue.set_self q _

def Serves (P : Platform) (t : T) (k : MqCall) (d : Directory) (f : Calls T) (s' : Registry T)
    (l' : Local) : Prop :=
  ∃ d', (Sound s' (Function.update f t (some (k, l'))) ∧
      Guarded s' d' (Function.update f t (some (k, l')))) ∧
    Commits (outcomes P) ⟨d, phases (fun _ l => l.done) f⟩
      ⟨d', phases (fun _ l => l.done) (Function.update f t (some (k, l')))⟩

theorem commits_none (ht : f t = some (k, l)) (h : l'.done = l.done) :
    Commits (outcomes P) ⟨d, phases (fun _ l => l.done) f⟩
      ⟨d, phases (fun _ l => l.done) (Function.update f t (some (k, l')))⟩ := by
  rw [phases_keep ht h fun _ _ _ _ _ => rfl]
  exact .refl _

theorem serves_quiet (hs : Sound s f) (hg : Guarded s d f) (ht : f t = some (k, l))
    (hi : s'.inited = s.inited) (hm : s'.mux = s.mux) (hc : catalogueOf s' = catalogueOf s)
    (hlive : ∀ q ∈ s.allq, (PosixObj.POSIX_MQUEUE, q) ∈ s'.live) (hcall : l'.call = l.call)
    (hheld : l'.held = l.held) (hdoomed : l'.doomed = l.doomed) (hdone : l'.done = l.done) :
    Serves P t k d f s' l' := by
  have hallq : s'.allq = s.allq := congrArg Catalogue.allq hc
  refine ⟨d, ⟨hs.set hi (hallq ▸ hs.nodup) ?_ ?_ ?_, hg.quiet hm hc ?_⟩, ?_⟩
  · exact fun q hq => hallq ▸ hq
  · exact fun q hq => hlive q (hallq ▸ hq)
  · rintro _ _ ⟨⟩
    rw [hallq, hdoomed]
    exact ⟨hcall.trans (hs.call t k l ht), fun q hq => hs.doomed t k l q ht hq⟩
  · simp [heldOf, ht, hheld]
  · exact commits_none ht hdone

theorem serves_write (hs : Sound s f) (hg : Guarded s d f) (ht : f t = some (k, l))
    (hl : l.held = some (b, n)) (hi : s'.inited = s.inited) (hm : s'.mux = s.mux)
    (hn : s'.allq.Nodup) (hsub : ∀ q ∈ s'.allq, q ∈ s.allq) (hlive : s'.live = s.live)
    (hcall : l'.call = l.call) (hheld : l'.held = some (b, catalogueOf s'))
    (hdoomed : ∀ q, l'.doomed = some q → q ∉ s'.allq) (hdone : l'.done = l.done) :
    Serves P t k d f s' l' := by
  have hht : heldOf (f t) = some (b, n) := by simp [heldOf, ht, hl]
  have hne : heldOf (f t) ≠ none := by simp [hht]
  refine ⟨d, ⟨hs.set hi hn hsub ?_ ?_, guarded_alone (fun u hu => hg.others hne hu) ?_ ?_ ?_⟩, ?_⟩
  · exact fun q hq => hlive ▸ hs.live q (hsub q hq)
  · rintro _ _ ⟨⟩
    exact ⟨hcall.trans (hs.call t k l ht), hdoomed⟩
  · exact fun _ => hm ▸ hg.owner t hne
  · intro b' n' hb
    obtain ⟨rfl, rfl⟩ : b = b' ∧ catalogueOf s' = n' := by simpa [heldOf, hheld] using hb
    exact ⟨(hg.held t b n hht).1, rfl⟩
  · intro hnone
    simp [heldOf, hheld] at hnone
  · exact commits_none ht hdone

theorem serves_modify (hs : Sound s f) (hg : Guarded s d f) (ht : f t = some (k, l))
    (hl : l.held ≠ none) (q : Ptr) {g : MqdInternal → MqdInternal} {e : Entry → Entry}
    (he : ∀ o, Entry.ofObj (g o) = e (.ofObj o)) :
    Serves P t k d f (s.modify q g) (l.write fun c => c.set q (e (c.entry q))) := by
  obtain ⟨⟨b, n⟩, hbn⟩ := Option.ne_none_iff_exists'.mp hl
  have hn : n = catalogueOf s := (hg.held t b n (by simp [heldOf, ht, hbn])).2
  refine serves_write hs hg ht hbn rfl rfl hs.nodup (fun _ hq => hq) rfl rfl ?_ ?_ rfl
  · rw [write_held hbn, catalogueOf_modify, he, hn]
    rfl
  · exact fun p hp => hs.doomed t k l p ht hp

section Requests
variable {relock : Bool} {e : Env}

theorem muxLock_serves (hs : Sound s f) (hg : Guarded s d f) (ht : f t = some (k, l))
    (hl : l.held = none) {r : Unit} (hx : mqExec relock P t e .muxLock s = some (r, s')) :
    ∃ l', (serving P).after l .muxLock r l' ∧ Serves P t k d f s' l' := by
  obtain ⟨⟨ok, m⟩, hlock, heq⟩ := Option.map_eq_some_iff.mp hx
  cases heq
  rcases mutLock_own hlock with ⟨-, hown, hbefore⟩ | ⟨rfl, -⟩
  · have hnone (u : T) : heldOf (f u) = none := by
      by_cases hut : u = t
      · subst u
        simp [heldOf, ht, hl]
      · by_contra hn
        have howner := hg.owner u hn
        rcases hbefore with hfree | hmine
        · rw [howner] at hfree
          cases hfree
        · exact hut (Option.some.inj (howner.symm.trans hmine))
    refine ⟨_, ⟨catalogueOf s, hs.nodup, rfl⟩, d, ⟨hs.set rfl hs.nodup (fun _ hq => hq) hs.live ?_,
      guarded_alone (fun u _ => hnone u) (fun _ => hown) ?_ (by simp [heldOf])⟩, ?_⟩
    · rintro _ _ ⟨⟩
      exact ⟨hs.call t k l ht, fun q hq => hs.doomed t k l q ht hq⟩
    · intro b n hb
      obtain ⟨rfl, rfl⟩ : catalogueOf s = b ∧ catalogueOf s = n := by simpa [heldOf] using hb
      exact ⟨hg.free hnone, rfl⟩
    · exact commits_none ht rfl
  · exact absurd rfl (mutLock_refused hlock).2.2.1

theorem muxUnlock_serves (hs : Sound s f) (hg : Guarded s d f) (ht : f t = some (k, l))
    (hsafe : (serving P).safe l .muxUnlock) {r : Unit}
    (hx : mqExec relock P t e .muxUnlock s = some (r, s')) :
    ∃ l', (serving P).after l .muxUnlock r l' ∧ Serves P t k d f s' l' := by
  cases hx
  obtain ⟨b, n, hbn, hverdict⟩ := hsafe
  have hht : heldOf (f t) = some (b, n) := by simp [heldOf, ht, hbn]
  have hne : heldOf (f t) ≠ none := by simp [hht]
  obtain ⟨hb, rfl⟩ := hg.held t b n hht
  have hcall := hs.call t k l ht
  refine ⟨_, ⟨b, _, hbn, rfl⟩, ?_⟩
  have hsound : Sound (s.withMux (mutUnlock s.mux)) (Function.update f t
      (some (k, { l with held := none, done := (verdict l b).or l.done }))) := by
    refine hs.set rfl hs.nodup (fun _ hq => hq) hs.live ?_
    rintro _ _ ⟨⟩
    exact ⟨hcall, fun q hq => hs.doomed t k l q ht hq⟩
  have hguard (d' : Directory) (hd' : d'.entries = (catalogueOf s).entries) :
      Guarded (s.withMux (mutUnlock s.mux)) d' (Function.update f t
        (some (k, { l with held := none, done := (verdict l b).or l.done }))) := by
    refine guarded_alone (fun u hu => hg.others hne hu) ?_ ?_ (fun _ => hd')
    · intro hn
      exact absurd rfl hn
    · intro b' n' hn
      cases hn
  cases hv : verdict l b with
  | none =>
    rw [hv] at hverdict hsound hguard
    exact ⟨d, ⟨hsound, hguard d (hb.trans hverdict.symm)⟩, commits_none ht rfl⟩
  | some v =>
    rw [hv] at hverdict hsound hguard
    obtain ⟨hdone, hconf⟩ := hverdict
    let d' := (catalogueOf s).toDirectory hs.nodup
    refine ⟨d', ⟨hsound, hguard d' rfl⟩, ?_⟩
    rw [hcall] at hconf
    exact commits_own ht hdone rfl (fun v hv => hconf v hv d d' hb rfl) fun _ _ _ _ _ => rfl

theorem load_serves (hs : Sound s f) (hg : Guarded s d f) (ht : f t = some (k, l)) (q : Ptr)
    (hsafe : (serving P).safe l (.load q)) :
    ∃ l', (serving P).after l (.load q) (s.obj q) l' ∧ Serves P t k d f s l' := by
  have hcall := hs.call t k l ht
  refine ⟨_, ⟨?_, rfl⟩, ?_⟩
  · intro b n hbn
    obtain ⟨-, rfl⟩ := hg.held t b n (by simp [heldOf, ht, hbn])
    rfl
  · by_cases hk : ∃ p, l.call = .mqGetattr p
    · obtain ⟨p, hp⟩ := hk
      obtain ⟨hdone, rfl, c, hc, hmem⟩ := hsafe p hp
      obtain ⟨hd, rfl⟩ := hg.held t c c (by simp [heldOf, ht, hc])
      have hread : l.read P (s.obj q) =
          { l with done := some (.value (.attr (attrOf P (s.obj q)))) } := by
        simp [Local.read, hp]
      rw [hread]
      refine ⟨d, ⟨hs.set rfl hs.nodup (fun _ hq => hq) hs.live ?_, hg.quiet rfl rfl ?_⟩, ?_⟩
      · rintro _ _ ⟨⟩
        exact ⟨hcall, fun q hq => hs.doomed t k l q ht hq⟩
      · simp [heldOf, ht]
      · refine commits_own ht hdone rfl ?_ fun _ _ _ _ _ => rfl
        rintro _ rfl
        rw [← hcall, hp]
        simp only [serve, Catalogue.lookup_eq hd, if_pos hmem, true_and]
        exact ⟨(s.obj q).q.n, rfl⟩
    · have hk' : ∀ p, l.call ≠ .mqGetattr p := fun p hp => hk ⟨p, hp⟩
      rw [read_eq hk']
      exact serves_quiet hs hg ht rfl rfl rfl hs.live rfl rfl rfl rfl

theorem lleDel_serves (hs : Sound s f) (hg : Guarded s d f) (ht : f t = some (k, l))
    (hl : l.held ≠ none) (q : Ptr) :
    Serves P t k d f (s.unlink q) { l.write (·.unlink q) with doomed := some q } := by
  obtain ⟨⟨b, n⟩, hbn⟩ := Option.ne_none_iff_exists'.mp hl
  have hn : n = catalogueOf s := (hg.held t b n (by simp [heldOf, ht, hbn])).2
  refine serves_write hs hg ht hbn rfl rfl (hs.nodup.erase q) ?_ rfl rfl ?_ ?_ rfl
  · exact fun p hp => List.mem_of_mem_erase hp
  · rw [write_held hbn, hn]
    rfl
  · intro p hp
    obtain rfl := Option.some.inj hp
    exact fun hm => (hs.nodup.mem_erase_iff.mp hm).1 rfl

theorem allocate_serves (hs : Sound s f) (hg : Guarded s d f) (ht : f t = some (k, l))
    {type : PosixObj} {block r : Option Ptr} (hx : s.allocate type block = some (r, s'))
    (hcall : l'.call = l.call) (hheld : l'.held = l.held) (hdoomed : l'.doomed = l.doomed)
    (hdone : l'.done = l.done) :
    (∀ q, r = some q → (type, q) ∉ s.live) ∧ Serves P t k d f s' l' := by
  cases block with
  | none =>
    cases hx
    exact ⟨by simp, serves_quiet hs hg ht rfl rfl rfl hs.live hcall hheld hdoomed hdone⟩
  | some p =>
    simp only [Registry.allocate] at hx
    split_ifs at hx with hmem
    cases hx
    refine ⟨?_, serves_quiet hs hg ht rfl rfl rfl ?_ hcall hheld hdoomed hdone⟩
    · rintro q ⟨⟩
      exact hmem
    · exact fun q hq => Finset.mem_insert_of_mem (hs.live q hq)

end Requests

end Steps

def mqSystem (relock : Bool) (P : Platform) :
    System T MqOp MqAns Env (Registry T) MqCall MqRes where
  code _ k := mqCode P k
  exec t e c s := mqExec relock P t c e s
  enter _ _ s := some s
  leave _ _ _ s := s

section Service
variable {P : Platform} {relock : Bool} {s s' : Registry T} {d : Directory} {f : Calls T} {t : T}
  {k : MqCall} {l : Local}

theorem mqExec_serves (hs : Sound s f) (hg : Guarded s d f) (ht : f t = some (k, l)) {e : MqOp}
    {c : Env} {r : MqAns e} (hsafe : (serving P).safe l e)
    (hx : mqExec relock P t c e s = some (r, s')) :
    ∃ l', (serving P).after l e r l' ∧ Serves P t k d f s' l' := by
  have hquiet : Serves P t k d f s l := serves_quiet hs hg ht rfl rfl rfl hs.live rfl rfl rfl rfl
  have hmodify (q : Ptr) (g : MqdInternal → MqdInternal)
      (h : ∀ o, Entry.ofObj (g o) = .ofObj o) : Serves P t k d f (s.modify q g) l :=
    serves_quiet hs hg ht rfl rfl (catalogueOf_modify_same q h) hs.live rfl rfl rfl rfl
  cases e with
  | loadInited =>
    cases hx
    exact ⟨l, ⟨hs.inited, rfl⟩, hquiet⟩
  | llInit => exact absurd hsafe id
  | mutInit => exact absurd hsafe id
  | storeInited => exact absurd hsafe id
  | muxLock => exact muxLock_serves hs hg ht hsafe hx
  | muxUnlock => exact muxUnlock_serves hs hg ht hsafe hx
  | allq =>
    cases hx
    refine ⟨l, ⟨rfl, fun b n hbn => ?_⟩, hquiet⟩
    obtain ⟨-, rfl⟩ := hg.held t b n (by simp [heldOf, ht, hbn])
    rfl
  | load q =>
    cases hx
    exact load_serves hs hg ht q hsafe
  | storeOpenCount q m =>
    cases hx
    exact ⟨_, rfl, serves_modify hs hg ht hsafe q (e := fun e => { e with openCount := m })
      fun _ => rfl⟩
  | storePendingUnlink q =>
    cases hx
    exact ⟨_, rfl, serves_modify hs hg ht hsafe q (e := Entry.marked) fun _ => rfl⟩
  | lleDel q =>
    cases hx
    exact ⟨_, rfl, lleDel_serves hs hg ht hsafe q⟩
  | allocQueue =>
    obtain ⟨hfresh, hserves⟩ : (∀ q, r = some q → (PosixObj.POSIX_MQUEUE, q) ∉ s.live) ∧
        Serves P t k d f s' { l with fresh := r } :=
      allocate_serves hs hg ht hx rfl rfl rfl rfl
    refine ⟨_, ⟨rfl, fun q b n hq hbn hm => hfresh q hq ?_⟩, hserves⟩
    obtain ⟨-, rfl⟩ := hg.held t b n (by simp [heldOf, ht, hbn])
    exact hs.live q hm
  | clearQueue q =>
    cases hx
    exact ⟨_, rfl, serves_modify hs hg ht hsafe q (e := fun _ => .ofObj zeroQueue) fun _ => rfl⟩
  | allocBuf sz => exact ⟨l, rfl, (allocate_serves hs hg ht hx rfl rfl rfl rfl).2⟩
  | storeBuf q buf =>
    cases hx
    exact ⟨l, rfl, hmodify q _ fun _ => rfl⟩
  | clearBuf buf sz =>
    cases hx
    exact ⟨l, rfl, hquiet⟩
  | storeName q name =>
    cases hx
    exact ⟨_, rfl, serves_modify hs hg ht hsafe q (e := fun e => { e with name := name })
      fun _ => rfl⟩
  | storeFlags q flags =>
    cases hx
    exact ⟨_, rfl, serves_modify hs hg ht hsafe q (e := fun e => { e with flags := flags })
      fun _ => rfl⟩
  | lleInit q =>
    cases hx
    exact ⟨l, rfl, hquiet⟩
  | mqInit q isz buf sz =>
    cases hx
    exact ⟨_, rfl, serves_modify hs hg ht hsafe q
      (e := fun e => { e with maxmsg := sz, msgsize := isz }) fun _ => rfl⟩
  | free type q =>
    cases hx
    refine ⟨l, rfl, serves_quiet hs hg ht rfl rfl rfl (fun p hp => ?_) rfl rfl rfl rfl⟩
    have hne : ((PosixObj.POSIX_MQUEUE, p) : PosixObj × Ptr) ≠ (type, q) := by
      rintro ⟨⟩
      exact hs.doomed t k l _ ht (hsafe rfl) hp
    exact Finset.mem_erase.mpr ⟨hne, hs.live p hp⟩
  | tmrTicks =>
    cases hx
    exact ⟨l, rfl, hquiet⟩
  | mqPut q msg ticks =>
    obtain ⟨g, rfl⟩ := mqPut_some hx
    exact ⟨l, rfl, hmodify q _ fun _ => rfl⟩
  | mqGet q msg ticks =>
    obtain ⟨g, rfl⟩ := mqGet_some hx
    exact ⟨l, rfl, hmodify q _ fun _ => rfl⟩

/-- A call that has not taken effect by its end does so then. -/
theorem leave_serves (hs : Sound s f) (hg : Guarded s d f) (ht : f t = some (k, l)) {v : MqRes}
    (hv : Returned P k v l) : ∃ g w, (Sound s (Function.update f t none) ∧
      Guarded s d (Function.update f t none)) ∧
      Commits (outcomes P) ⟨d, phases (fun _ l => l.done) f⟩ ⟨d, g⟩ ∧ g t = .done k w ∧ w.fits v ∧
      phases (fun _ l => l.done) (Function.update f t none) = Function.update g t .idle := by
  have hsound : Sound s (Function.update f t none) :=
    hs.set rfl hs.nodup (fun _ hq => hq) hs.live (by simp)
  have hphases : phases (fun _ l => l.done) (Function.update f t none) =
      Function.update (phases (fun _ l => l.done) f) t .idle :=
    phases_update fun _ _ _ _ _ => rfl
  have hquiet (hl : l.held = none) : Guarded s d (Function.update f t none) :=
    hg.quiet rfl rfl (by simp [heldOf, ht, hl])
  have hlate (hl : l.done = none) (hserve : serve P k d v d) :
      Commits (outcomes P) ⟨d, phases (fun _ l => l.done) f⟩
        ⟨d, Function.update (phases (fun _ l => l.done) f) t (.done k (.value v))⟩ :=
    .one (by simp [phases, ht, Phase.ofCall, hl]) fun _ hw => hw ▸ hserve
  cases hv with
  | @done hheld w hdone hfits =>
    refine ⟨_, w, ⟨hsound, hquiet hheld⟩, .refl _, ?_, hfits, hphases⟩
    simp [phases, ht, Phase.ofCall, hdone]
  | free hheld hdone h =>
    exact ⟨_, .value v, ⟨hsound, hquiet hheld⟩, hlate hdone (h d), by simp, rfl,
      by simp [hphases]⟩
  | held b n hheld hdone hsame h =>
    have hht : heldOf (f t) = some (b, n) := by simp [heldOf, ht, hheld]
    obtain ⟨hb, hn⟩ := hg.held t b n hht
    have hguard : Guarded s d (Function.update f t none) := by
      refine guarded_alone (fun u hu => hg.others (by simp [hht]) hu) (fun hne => absurd rfl hne)
        (by simp [heldOf]) fun _ => ?_
      rw [hb, ← hsame, hn]
    exact ⟨_, .value v, ⟨hsound, hguard⟩, hlate hdone (h d d hb (hb.trans hsame.symm)), by simp,
      rfl, by simp [hphases]⟩

def mqService (relock : Bool) (P : Platform) :
    Linearizability.Service
      (mqSystem relock P : System T MqOp MqAns Env (Registry T) MqCall MqRes) (outcomes P) Local
      where
  toProtocol := serving P
  inv s d f := Sound s f ∧ Guarded s d f
  result _ _ l := l.done
  fits := Outcome.fits
  post := Returned P
  enter_step := by
    intro s s' d f t k h ht hs
    cases hs
    obtain ⟨hsound, hg⟩ := h
    refine ⟨.start k, mqCode_serving P k, ⟨hsound.set rfl hsound.nodup (fun _ hq => hq)
      hsound.live ?_, hg.quiet rfl rfl (by simp [heldOf, ht, Local.start])⟩, ?_⟩
    · rintro _ _ ⟨⟩
      exact ⟨rfl, by simp [Local.start]⟩
    · exact phases_update fun _ _ _ _ _ => rfl
  exec_step := by
    intro s s' d f t k l e c r h ht hsafe hx
    obtain ⟨l', ha, d', hd'⟩ := mqExec_serves h.1 h.2 ht hsafe hx
    exact ⟨l', d', ha, hd'⟩
  leave_step := by
    intro s d f t k l v h ht hv
    obtain ⟨g, w, hg⟩ := leave_serves h.1 h.2 ht hv
    exact ⟨d, g, w, hg⟩

end Service

omit [DecidableEq T] in
theorem sound_idle {s : Registry T} (hi : s.inited = true) (hn : s.allq.Nodup)
    (hlive : ∀ q ∈ s.allq, (PosixObj.POSIX_MQUEUE, q) ∈ s.live) : Sound s fun _ => none :=
  ⟨hi, hn, hlive, by simp, by simp⟩

omit [DecidableEq T] in
theorem guarded_idle {s : Registry T} (hn : s.allq.Nodup) :
    Guarded s ((catalogueOf s).toDirectory hn) fun _ => none :=
  ⟨fun _ ht => absurd rfl ht, by simp [heldOf], fun _ => rfl⟩

/-- Every run of the calls of `posix_mqueue.c` by any threads is linearizable to the directory;
whenever the lock is free, or no call is in progress, the directory is the list. -/
theorem mqueue_linearizes {relock : Bool} {P : Platform} {s : Registry T} (hi : s.inited = true)
    (hn : s.allq.Nodup) (hlive : ∀ q ∈ s.allq, (PosixObj.POSIX_MQUEUE, q) ∈ s.live)
    {as : List (Action T Env MqCall)} {p : Pool T MqOp MqAns (Registry T) MqCall MqRes}
    (hrun : execute (step (mqSystem relock P)) (idlePool s) as = some p) :
    ∃ d, Linearizes (directory P) ((catalogueOf s).toDirectory hn)
        (history (mqSystem relock P) (idlePool s) as) d ∧
      (p.shared.mux.own = none ∨ (∀ t, p.thread t = none) →
        d.entries = (catalogueOf p.shared).entries) := by
  have hinit : (mqService relock P).inv s ((catalogueOf s).toDirectory hn) fun _ => none :=
    ⟨sound_idle hi hn hlive, guarded_idle hn⟩
  obtain ⟨d, f, hlin, ⟨-, hg⟩, hstands⟩ :=
    (mqService relock P).linearizes_resolved (outcomes_refine P) hinit hrun
  refine ⟨d, hlin, fun hfree => hg.free fun t => ?_⟩
  rcases hfree with hown | hidle
  · by_contra hne
    rw [hg.owner t hne] at hown
    cases hown
  · have ht := hstands t
    rw [hidle t] at ht
    rw [Linearizability.Service.stands_none ht]
    rfl

def linkedRegistry : Registry Bool where
  inited := true
  mux := mutInit
  allq := [1]
  obj := fun _ => { zeroQueue with buf := 2, name := nameQ, openCount := 1 }
  live := {(.POSIX_MQUEUE, 1), (.POSIX_MQUEUE_BUF, 2)}

def runs (t : Bool) (n : ℕ) : List (Action Bool Env MqCall) :=
  List.replicate n (.run t ⟨none, none, 5, true⟩)

/-- The last descriptor is closed while another thread is about to unlink the name. -/
def closeUnlinkSteps : List (Action Bool Env MqCall) :=
  [.enter false (.mqClose 1), .enter true (.mqUnlink nameQ)] ++ runs false 1 ++
    runs true 1 ++ runs false 7 ++ runs true 9 ++ [.leave true, .leave false]

def closeUnlinkHistory : List (Event Bool MqCall MqRes) :=
  [.entered false (.mqClose 1), .entered true (.mqUnlink nameQ),
    .returned true (.status .ok), .returned false (.status .ok)]

theorem mqueue_linearizes_closeUnlink : ∃ p d,
    execute (step (mqSystem true platform1000)) (idlePool linkedRegistry) closeUnlinkSteps =
      some p ∧ Linearizes (directory platform1000)
        ((catalogueOf linkedRegistry).toDirectory (by simp [linkedRegistry, catalogueOf]))
        closeUnlinkHistory d ∧ d.entries = [] := by
  have hrun : (execute (step (mqSystem true platform1000)) (idlePool linkedRegistry)
      closeUnlinkSteps).map (fun p => (p.shared.mux.own, p.shared.allq)) = some (none, []) ∧
      history (mqSystem true platform1000) (idlePool linkedRegistry) closeUnlinkSteps =
        closeUnlinkHistory := by
    decide +kernel
  obtain ⟨hend, hhist⟩ := hrun
  obtain ⟨p, hp, hvalues⟩ := Option.map_eq_some_iff.mp hend
  obtain ⟨hown, hallq⟩ := Prod.mk.inj hvalues
  have hn : linkedRegistry.allq.Nodup := by simp [linkedRegistry]
  obtain ⟨d, hlin, hd⟩ := mqueue_linearizes rfl hn (by simp [linkedRegistry]) hp
  rw [hhist] at hlin
  refine ⟨p, d, hp, hlin, ?_⟩
  rw [hd (.inl hown)]
  simp [Catalogue.entries, catalogueOf, hallq]

end LibPosix.MqueueDirectory
