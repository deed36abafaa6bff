import KuroOS.Task.Build

/-!
# The image of a new task

Each round of an image loop takes a page, fills it and maps it. What the pages
hold in the end is stated once for both loops: page number `n` holds the bytes
`want n`.
-/

namespace KuroOS

open Base

/-- The mapped pages hold what they should. -/
def Filled (want : Nat → Nat → UInt8) (user : UserMap) (mem : Mem) : Prop :=
  ∀ n p, user n = some p → ∀ i < 4096, mem (p + i) = want n i

variable [Layout]

variable {t us ks root : Nat} {own : Nat → Owner} {free : List Nat} {dir : Directory} {user : UserMap}
  {s : Kernel} {halt : Halt → Kernel → Prop} {want : Nat → Nat → UInt8}

/-- Pages of the pool are not cut by another page's bytes. -/
theorem PoolPage.pageOf_add {p : Nat} (page : PoolPage p) {i : Nat} (low : i < 4096) : pageOf (p + i) = p :=
  pageOf_of_mem page.1 (by omega) (by omega)

/-- One round of an image loop, from `page_alloc` on. `stable` is what the
contents depend on. -/
theorem Building.addPage (stable : Prop) (want : Nat → Nat → UInt8) {n : Nat}
    (b : Building t us ks root ∅ own free dir user s) (absent : user n = none) (plain : ¬ KernelVpn n)
    (filled : stable → Filled want user s.mem) (below : n < 2 ^ 26) (fill : Nat → Mem → Mem)
    {no yes : Kernel → Prop}
    (write : ∀ page mem x, PoolPage page → pageOf x ≠ page → fill page mem x = mem x)
    (fills : stable → ∀ page own' s', PoolPage page → own page = .free → BuildMoves t own s own' s' →
      ∀ i < 4096, fill page s'.mem (page + i) = want n i)
    (failed : ∀ own' free' dir' s', Building t us ks root ∅ own' free' dir' user s' →
      BuildMoves t own s own' s' → free.length < 3 → no s')
    (added : ∀ page own' free' dir' s', Building t us ks root ∅ own' free' dir' (user.add n page) s' →
      (stable → Filled want (user.add n page) s'.mem) → BuildMoves t own s own' s' →
      free'.length < free.length → free.length ≤ free'.length + 3 → yes s') :
    wp pageAlloc s (fun page s₁ => if page = 0 then no s₁ else
      wp (pgtableMap root (4096 * n) page pageSize pageUser) { s₁ with mem := fill page s₁.mem }
        (fun r s₂ => if r ≠ 0 then wp (pageFree page) s₂ (fun _ s₃ => no s₃) halt else yes s₂) halt) halt := by
  refine wp_mono b.alloc ?_ fun _ _ => id
  rintro page s₁ (⟨empty, rfl, rfl⟩ | ⟨own₁, free₁, shape, valid, wasFree, b₁, moves₁, keeps₁⟩)
  · rw [if_pos rfl]
    exact failed own free dir s₁ b .refl (by simp [empty])
  have bounds := valid.bounds
  have isData := (b₁.spares page rfl).1
  rw [if_neg (by omega)]
  -- the new page is the only one that filling it changes
  have b₂ := b₁.write (fill page s₁.mem) fun x here => write page s₁.mem x valid (by
    rintro rfl
    rcases here with here | here | isHead
    · simp [isData] at here
    · simp [isData] at here
    · exact b₁.space.table.pool.not_head (by simp [isData]) isHead)
  have moves₂ : BuildMoves t own s own₁ { s₁ with mem := fill page s₁.mem } :=
    ⟨moves₁.moves.trans (.of_bytes fun x outside _ => write page s₁.mem x valid (by
      rintro rfl
      exact outside (by simp [isData, building, labels]))),
      congrArg (fun k : Kernel => { k with mem := fill page s₁.mem }) moves₁.globals⟩
  refine wp_mono (b₂.map below) ?_ fun _ _ => id
  rintro r s₂ ⟨own₂, free₂, dir₂, moves₃, keeps₃, outcome⟩
  have few := Reach.missing_le dir.reach n
  rcases outcome with ⟨rfl, _, b₃, isData₃, _, count⟩ | ⟨refused, b₃, why⟩
  · rw [if_neg (by simp)]
    refine added page own₂ free₂ dir₂ s₂ b₃ (fun isStable m p found i low => ?_) (moves₂.trans moves₃) ?_ ?_
    · by_cases equal : m = n
      · subst equal
        rw [UserMap.add, Function.update_self, Option.some.injEq] at found
        subst found
        exact (keeps₃ _ (by rw [valid.pageOf_add low]; exact isData)).trans
          (fills isStable page own₁ s₁ valid wasFree moves₁ i low)
      · rw [UserMap.add, Function.update_of_ne equal] at found
        have old := b.mapped m p found
        have validP := b.space.table.pool.pages p (by simp [old])
        have inPage := validP.pageOf_add low
        have other : p ≠ page := by
          rintro rfl
          simp [old] at wasFree
        have still := b₁.mapped m p found
        calc s₂.mem (p + i) = fill page s₁.mem (p + i) := keeps₃ _ (by rw [inPage]; exact still)
          _ = s₁.mem (p + i) := write page s₁.mem _ valid (by rw [inPage]; exact other)
          _ = s.mem (p + i) := keeps₁ _ (by rw [inPage]; exact old)
          _ = want m i := filled isStable m p found i low
    · rw [shape, List.length_cons]
      omega
    · rw [shape, List.length_cons]
      omega
  · rw [if_pos refused]
    have short : free₁.length < dir.reach.missing n := (why.resolve_left (by simp [absent])).resolve_left plain
    refine wp_mono b₃.release ?_ fun _ _ => id
    rintro _ s₃ ⟨own₃, free₃, b₄, moves₄⟩
    refine failed own₃ free₃ dir₂ s₃ b₄ ((moves₂.trans moves₃).trans moves₄) ?_
    rw [shape, List.length_cons]
    omega

/-- A task's space survives the building of another task. -/
theorem TaskSpace.build {own' : Nat → Owner} {s' : Kernel} {v : TaskView} (space : TaskSpace own s.mem dir user v)
    (pool : Pool own free s) (moves : BuildMoves t own s own' s') (other : v.addr ≠ t) :
    TaskSpace own' s'.mem dir user v := by
  have foreign : ∀ o ∈ labels v.addr, o ∉ building t := by
    rintro o inside (rfl | inside')
    · simp [labels] at inside
    · exact labels_disjoint other inside inside'
  exact space.congr pool (fun o inside => moves.moves.own_iff (foreign o inside)) fun x here =>
    moves.moves.bytes x (here ▸ foreign _ (by simp [labels])) (pool.not_head (by simp [here]))

/-- So does its structure. -/
theorem TaskAt.build {own' : Nat → Owner} {s' : Kernel} {v : TaskView} (view : TaskAt s.mem v)
    (pool : Pool own free s) (inHeap : ∀ x, v.addr ≤ x → x < v.addr + 96 → own (pageOf x) = .heap)
    (moves : BuildMoves t own s own' s') :
    TaskAt s'.mem v ∧ ∀ x, v.addr ≤ x → x < v.addr + 96 → own' (pageOf x) = .heap := by
  have foreign : Owner.heap ∉ building t := by simp [building, labels]
  refine ⟨view.congr fun x low high => ?_, fun x low high => ?_⟩
  · have here := inHeap x low high
    exact moves.moves.bytes x (here ▸ foreign) (pool.not_head (by simp [here]))
  · exact (moves.moves.own_iff foreign _).mpr (inHeap x low high)

/-- The bytes of an image that building the task does not touch. -/
structure ImageSource (t start size : Nat) (own : Nat → Owner) (s : Kernel) (image : Nat → UInt8) : Prop where
  fits : start + size ≤ 2 ^ 64
  bytes : ∀ j < size, s.mem (start + j) = image j
  foreign : ∀ j < size, own (pageOf (start + j)) ∉ building t ∧ start + j ∉ node Layout.freePageList

/-- The image stays where it is. -/
theorem ImageSource.build {start size : Nat} {own' : Nat → Owner} {s' : Kernel} {image : Nat → UInt8}
    (source : ImageSource t start size own s image) (moves : BuildMoves t own s own' s') :
    ImageSource t start size own' s' image where
  fits := source.fits
  bytes j low := by
    obtain ⟨outside, plain⟩ := source.foreign j low
    exact (moves.moves.bytes _ outside plain).trans (source.bytes j low)
  foreign j low := ⟨moves.moves.closed _ (source.foreign j low).1, (source.foreign j low).2⟩

/-- What `task_create_user` puts into the image pages: the image, then zeros. -/
def imageByte (image : Nat → UInt8) (size n i : Nat) : UInt8 :=
  if 4096 * (n - 16) + i < size then image (4096 * (n - 16) + i) else 0

/-- A page that `task_create_user` has filled, from the image on. -/
theorem ImageSource.fill {start size done page copySize : Nat} {image : Nat → UInt8} {own' : Nat → Owner}
    {s' : Kernel} (source : ImageSource t start size own s image) (moves : BuildMoves t own s own' s')
    (valid : PoolPage page) (isFree : own page = .free) (covered : 4096 * done < size)
    (count : copySize = min 4096 (size - 4096 * done)) {i : Nat} (low : i < 4096) :
    memCopy (memZero s'.mem page pageSize) page (start + 4096 * done) copySize (page + i) =
      imageByte image size (16 + done) i := by
  have bounds := valid.bounds
  have fits := source.fits
  have later := source.build moves
  -- the image is not in the page
  have off : ∀ j < size, ¬ (page ≤ start + j ∧ start + j < page + 4096) := fun j inside touch => by
    refine (source.foreign j inside).1 ?_
    rw [pageOf_of_mem bounds.1 touch.1 touch.2, isFree]
    exact .inl rfl
  have apart : start + 4096 * done + copySize ≤ page ∨ page + copySize ≤ start + 4096 * done := by
    by_contra overlap
    by_cases above : page ≤ start + 4096 * done
    · exact off (4096 * done) covered ⟨above, by omega⟩
    · exact off (page - start) (by omega) ⟨by omega, by omega⟩
  unfold imageByte
  rw [show 16 + done - 16 = done by omega]
  by_cases inside : i < copySize
  · rw [if_pos (by omega), memCopy_of_inside (by omega) (by omega) apart inside,
      memZero_apply (by simp only [pageSize]; omega), if_neg (by
        have := off (4096 * done + i) (by omega)
        simp only [pageSize]
        omega), show start + 4096 * done + i = start + (4096 * done + i) by omega]
    exact later.bytes _ (by omega)
  · rw [if_neg (by omega), memCopy_of_outside (by omega) (by omega),
      memZero_apply (by simp only [pageSize]; omega), if_pos (by simp only [pageSize]; omega)]

/-- The image loop of `task_create_user`: it maps the whole image, or cleans up. -/
theorem taskCreateImage_spec {guard : Prop} {start size imagePages done fuel : Nat} {image : Nat → UInt8}
    (multiple : imagePages % 4096 = 0) (fitsPages : imagePages < 2 ^ 64)
    (aligned : imagePages < size + 4096) (sizeFits : size < 2 ^ 64)
    (enough : free.length < fuel) (few : done + free.length ≤ 0x8000)
    (b : Building t us ks root ∅ own free dir user s)
    (range : ∀ n, (user n).isSome ↔ 16 ≤ n ∧ n < 16 + done) (within : 4096 * done ≤ imagePages)
    (filled : guard → Filled (imageByte image size) user s.mem)
    (source : guard → ImageSource t start size own s image) {post : Bool → Kernel → Prop}
    (failed : ∀ own' free' s', Pool own' free' s' → BuildMoves t own s own' s' → (∀ q, own' q ∉ labels t) →
      free.length < 3 * (imagePages / 4096 - done) → wp (kfree t) s' (fun _ s'' => post false s'') halt)
    (built : ∀ pages own' free' dir' user' s', imagePages = 4096 * pages → pages ≤ 0x8000 →
      Building t us ks root ∅ own' free' dir' user' s' →
      (∀ n, (user' n).isSome ↔ 16 ≤ n ∧ n < 16 + pages) →
      (guard → Filled (imageByte image size) user' s'.mem) → BuildMoves t own s own' s' →
      free.length ≤ free'.length + 3 * (pages - done) → post true s') :
    wp (taskCreateImage t us ks root start size imagePages fuel (4096 * done)) s post halt := by
  induction fuel generalizing done own free dir user s with
  | zero => omega
  | succ fuel ih =>
      rw [taskCreateImage]
      split
      case isFalse finished =>
        rw [wp_pure]
        exact built done own free dir user s (by omega) (by omega) b range filled .refl (by omega)
      case isTrue more =>
        have offFits : 4096 * done + 4096 < 2 ^ 64 := by omega
        have next : wadd (4096 * done) pageSize = 4096 * (done + 1) := by
          rw [wadd_of_lt] <;> simp only [pageSize] <;> omega
        rw [next, show wadd userTextBase (4096 * done) = 4096 * (16 + done) by
          rw [wadd_of_lt] <;> simp only [userTextBase] <;> omega]
        obtain ⟨copySize, here⟩ : ∃ copySize, copySize = if 4096 * (done + 1) > size then
            wsub size (4096 * done) else pageSize := ⟨_, rfl⟩
        have count : copySize = min 4096 (size - 4096 * done) := by
          rw [here]
          split
          · rw [wsub_of_le (by omega) (by omega)]
            omega
          · simp only [pageSize]
            omega
        simp only [wp_bind, wp_ite, wp_modifyMem, wp_pure, ← here]
        have absent : user (16 + done) = none := by
          rw [← Option.not_isSome_iff_eq_none, range]
          omega
        refine b.addPage guard (imageByte image size) (n := 16 + done) absent (by unfold KernelVpn; omega) filled (by omega)
          (fun page mem => memCopy (memZero mem page pageSize) page (wadd start (4096 * done)) copySize)
          (fun page mem x validPage other => ?_) (fun guarded page own' s' validPage wasFree moves i low => ?_)
          (fun own' free' dir' s' b' moves short => ?_) (fun page own' free' dir' s' b' filled' moves fewer used => ?_)
        · have bounds := validPage.bounds
          have outside : x < page ∨ page + 4096 ≤ x := by
            by_contra inside
            exact other (pageOf_of_mem bounds.1 (by omega) (by omega))
          rw [memCopy_of_outside (by omega) (by omega), memZero_apply (by simp only [pageSize]; omega),
            if_neg (by simp only [pageSize]; omega)]
        · have fits := (source guarded).fits
          rw [wadd_of_lt (by omega)]
          exact (source guarded).fill moves validPage wasFree (by omega) count low
        · refine (wp_bind _ _).mp (b'.abandon done (by omega) (fun n p found => ?_)
            fun own'' free'' s'' pool'' moves'' clear => ?_)
          · exact (range n).mp (by simp [found])
          · exact failed own'' free'' s'' pool'' (moves.trans moves'') clear (by omega)
        · refine ih (by omega) (by omega) b' (fun n => ?_) (by omega) filled'
            (fun guarded => (source guarded).build moves)
            (fun own'' free'' s'' pool'' moves'' clear short => failed own'' free'' s'' pool'' (moves.trans moves'') clear
              (by omega))
            (fun pages own'' free'' dir'' user'' s'' total few' b'' range'' filled'' moves'' less =>
              built pages own'' free'' dir'' user'' s'' total few' b'' range'' filled'' (moves.trans moves'') (by omega))
          by_cases equal : n = 16 + done
          · subst equal
            simp [UserMap.add]
          · rw [UserMap.add, Function.update_of_ne equal, range n]
            omega

/-- What `task_fork` needs to know of the parent. -/
structure Parent (v : TaskView) (t : Nat) (own : Nat → Owner) (dir : Directory) (user : UserMap)
    (s : Kernel) : Prop where
  view : TaskAt s.mem v
  heap : ∀ x, v.addr ≤ x → x < v.addr + 96 → own (pageOf x) = .heap
  space : TaskSpace own s.mem dir user v
  other : v.addr ≠ t

namespace Parent

variable {v : TaskView} {own' : Nat → Owner} {s' : Kernel}

/-- Building the child leaves the parent alone. -/
theorem build (p : Parent v t own dir user s) (pool : Pool own free s) (moves : BuildMoves t own s own' s') :
    Parent v t own' dir user s' :=
  ⟨(p.view.build pool p.heap moves).1, (p.view.build pool p.heap moves).2, p.space.build pool moves p.other,
    p.other⟩

/-- So it does with the bytes of the parent's pages. -/
theorem bytes (p : Parent v t own dir user s) (pool : Pool own free s) (moves : BuildMoves t own s own' s')
    {n q : Nat} (found : user n = some q) {i : Nat} (low : i < 4096) : s'.mem (q + i) = s.mem (q + i) := by
  have labelled : own q ∈ labels v.addr := by
    rcases p.space.mapped n q found with here | here <;> simp [here, labels]
  have owned : own q ≠ .outside := by
    rintro here
    simp [here, labels] at labelled
  have inPage := (pool.pages q owned).pageOf_add low
  refine moves.moves.bytes _ ?_ (pool.not_head (by rwa [inPage]))
  rw [inPage]
  rintro (isFree | other)
  · rw [Set.mem_singleton_iff.mp isFree] at labelled
    simp [labels] at labelled
  · exact labels_disjoint p.other labelled other

end Parent

/-- The image loop of `task_fork`: it copies what the parent maps, or cleans up. -/
theorem taskForkImage_spec {v : TaskView} {pdir : Directory} {puser : UserMap} {pages done left fuel : Nat}
    (total : done + left = pages) (small : pages ≤ 0x8000) (enough : left < fuel)
    (p : Parent v t own pdir puser s) (b : Building t us ks root ∅ own free dir user s)
    (range : ∀ n q, user n = some q → 16 ≤ n ∧ n < 16 + done)
    (dom : ∀ n, 16 ≤ n → n < 16 + done → ((user n).isSome ↔ (puser n).isSome))
    (filled : Filled want user s.mem)
    (source : ∀ n q, puser n = some q → ∀ i < 4096, s.mem (q + i) = want n i) {post : Bool → Kernel → Prop}
    (failed : ∀ own' free' s', Pool own' free' s' → BuildMoves t own s own' s' → (∀ q, own' q ∉ labels t) →
      free.length < 3 * left → wp (kfree t) s' (fun _ s'' => post false s'') halt)
    (built : ∀ own' free' dir' user' s', Building t us ks root ∅ own' free' dir' user' s' →
      (∀ n q, user' n = some q → 16 ≤ n ∧ n < 16 + pages) →
      (∀ n, 16 ≤ n → n < 16 + pages → ((user' n).isSome ↔ (puser n).isSome)) →
      Filled want user' s'.mem → BuildMoves t own s own' s' → free.length ≤ free'.length + 3 * left → post true s') :
    wp (taskForkImage v.addr t us ks root (4096 * pages) fuel (4096 * done)) s post halt := by
  induction left generalizing done fuel own free dir user s with
  | zero =>
      obtain ⟨fuel, rfl⟩ := Nat.exists_eq_succ_of_ne_zero (n := fuel) (by omega)
      obtain rfl : done = pages := by omega
      rw [taskForkImage, if_neg (by omega), wp_pure]
      exact built own free dir user s b range dom filled .refl (by omega)
  | succ left ih =>
      obtain ⟨fuel, rfl⟩ := Nat.exists_eq_succ_of_ne_zero (n := fuel) (by omega)
      have pool := b.space.table.pool
      have pst : SpaceState (.task v.addr) v.pagetable own free pdir puser s :=
        ⟨⟨p.space.tables, pool⟩, p.space.leaves, p.space.plain⟩
      have foreign : ¬ KernelVpn (16 + done) := by
        unfold KernelVpn
        omega
      have next : wadd (4096 * done) pageSize = 4096 * (done + 1) := by
        rw [wadd_of_lt] <;> simp only [pageSize] <;> omega
      rw [taskForkImage, if_pos (by omega), next, show wadd userTextBase (4096 * done) = 4096 * (16 + done) by
        rw [wadd_of_lt] <;> simp only [userTextBase] <;> omega]
      simp only [wp_bind, wp_loadWord, p.view.pagetable]
      cases found : puser (16 + done) with
      | none =>
          refine wp_mono (pst.lookup_none (by omega) found foreign) ?_ fun _ _ => id
          rintro _ _ ⟨rfl, rfl⟩
          refine ih (by omega) (by omega) p b (fun n q here => ?_) (fun n low high => ?_) filled source
            (fun own' free' s' pool' moves' clear short => failed own' free' s' pool' moves' clear (by omega))
            (fun own' free' dir' user' s' b' range' dom' filled' moves' less =>
              built own' free' dir' user' s' b' range' dom' filled' moves' (by omega))
          · have := range n q here
            omega
          · by_cases last : n = 16 + done
            · subst last
              rw [found]
              refine iff_of_false (fun some => ?_) (by simp)
              obtain ⟨q, here⟩ := Option.isSome_iff_exists.mp some
              have := range _ q here
              omega
            · exact dom n low (by omega)
      | some q =>
          have labelled := p.space.mapped _ q found
          have owned : own q ≠ .outside := by rcases labelled with here | here <;> simp [here]
          have valid := pool.pages q owned
          have bounds := valid.bounds
          refine wp_mono (pst.lookup_page (by omega) found) ?_ fun _ _ => id
          rintro _ s ⟨rfl, _, rfl⟩
          simp only [wp_bind, wp_ite, wp_modifyMem, wp_pure, pteToPa_user valid]
          have absent : user (16 + done) = none := by
            rw [← Option.not_isSome_iff_eq_none]
            intro some
            obtain ⟨r, here⟩ := Option.isSome_iff_exists.mp some
            have := range _ r here
            omega
          refine b.addPage True want (n := 16 + done) absent foreign (fun _ => filled) (by omega)
            (fun page mem => memCopy mem page q pageSize) (fun page mem x validPage other => ?_)
            (fun _ page own' s' validPage wasFree moves i low => ?_)
            (fun own' free' dir' s' b' moves short => ?_)
            (fun page own' free' dir' s' b' filled' moves _ used => ?_)
          · have := validPage.bounds
            refine memCopy_of_outside (by simp only [pageSize]; omega) ?_
            by_contra inside
            exact other (pageOf_of_mem this.1 (by omega) (by simp only [pageSize] at inside; omega))
          · have := validPage.bounds
            have apart : q ≠ page := by
              rintro rfl
              rcases labelled with here | here <;> simp [here] at wasFree
            calc memCopy s'.mem page q pageSize (page + i) = s'.mem (q + i) :=
                  memCopy_of_inside (by simp only [pageSize]; omega) (by simp only [pageSize]; omega)
                    (by simp only [pageSize]; omega) low
              _ = s.mem (q + i) := p.bytes pool moves found low
              _ = want (16 + done) i := source _ q found i low
          · refine (wp_bind _ _).mp (b'.abandon done (by omega) range
              fun own'' free'' s'' pool'' moves'' clear => ?_)
            exact failed own'' free'' s'' pool'' (moves.trans moves'') clear (by omega)
          · refine ih (by omega) (by omega) (p.build pool moves) b' (fun n r here => ?_)
              (fun n low high => ?_) (filled' trivial) (fun n r here i low => ?_)
              (fun own'' free'' s'' pool'' moves'' clear short => failed own'' free'' s'' pool'' (moves.trans moves'') clear
                (by omega))
              (fun own'' free'' dir'' user'' s'' b'' range'' dom'' filled'' moves'' less =>
                built own'' free'' dir'' user'' s'' b'' range'' dom'' filled'' (moves.trans moves'') (by omega))
            · by_cases equal : n = 16 + done
              · omega
              · rw [UserMap.add, Function.update_of_ne equal] at here
                have := range n r here
                omega
            · by_cases equal : n = 16 + done
              · subst equal
                simp [UserMap.add, found]
              · rw [UserMap.add, Function.update_of_ne equal]
                exact dom n low (by omega)
            · exact (p.bytes pool moves here low).trans (source n r here i low)

end KuroOS
