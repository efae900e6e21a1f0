import CppTorrent.Files.Layout

/-! # Downloading a multi-file torrent

Every entry of the layout makes `WritePieceToFile` copy a window of the content to its place in a file
(`writePart_entry`), so a download copies the windows of all entries, in the order of the pieces
(`paint`). The windows of a file cover it, and so the file ends up as its slice of the content
exactly if none of its windows reaches past its end; by the layout this says which torrents are
downloaded rightly (`download_iff`), whatever the order of the pieces. -/

namespace CppTorrent.Files.MultiFile

open CppTorrent.Files.Blocks CppTorrent.Files.Storage CppTorrent.Files.Layout
open CppTorrent.Lib.ByteFile

/-- The bytes of a piece of the content. -/
def pieceText (pl : ℕ) (content : List UInt8) (p : ℕ) : List UInt8 :=
  (content.drop (p * pl)).take pl

/-- A piece of the content, cut into blocks. -/
def pieceOf (pl : ℕ) (content : List UInt8) (p : ℕ) : Piece :=
  let blocks := cut (pieceText pl content p)
  ⟨blocks, blocks.length, blocks.length, p⟩

/-- The files are created, and the pieces are written to them. -/
def download (fuel : ℕ) (info : Info) (pieces : List Piece) : Except Fault Disk := do
  let m ← fillFiles fuel info
  pieces.foldlM (writePieceToFile m) (createFiles info)

/-- The files of lengths `lens` that the content consists of. -/
def slices (lens : List ℕ) (content : List UInt8) : Disk := fun i =>
  lens[i]?.map fun n => (content.drop (lens.take i).sum).take n

/-! ### What one entry writes -/

section Write

variable {pl : ℕ} {content : List UInt8}

theorem length_pieceText (p : ℕ) :
    (pieceText pl content p).length = pieceLen pl content.length p := by
  rw [pieceText, List.length_take, List.length_drop, pieceLen]

/-- The window of an entry, read from the piece and from the file. -/
theorem window_bytes {p pb fb n start : ℕ} (hp : p * pl + pb = start + fb)
    (hpb : pb ≤ pieceLen pl content.length p) (path : ℕ) :
    (((pieceText pl content p).drop pb).take (min (pieceLen pl content.length p - pb) n)) =
      (window pl content.length (entry path p pb fb n)).bytes (content.drop start) := by
  rw [window_entry, Window.bytes, pieceText, List.drop_take, List.drop_drop, List.drop_drop,
    List.take_take, hp]
  congr 1
  simp only [pieceLen] at *
  omega

/-- **An entry copies its window.** -/
theorem writePart_entry {path p pb fb n start : ℕ} {disk : Disk} {file : List UInt8}
    (hlen : content.length < 2 ^ 63) (hn : n < 2 ^ 63) (hp : p * pl + pb = start + fb)
    (hpb : pb ≤ pieceLen pl content.length p) (hfile : disk path = some file) :
    writePart (cut (pieceText pl content p)) disk (entry path p pb fb n) =
      .ok (Function.update disk path (some (copyWindow (content.drop start) file
        (window pl content.length (entry path p pb fb n))))) := by
  have hlen' : (pieceText pl content p).length = pieceLen pl content.length p := length_pieceText p
  have hle : pieceLen pl content.length p ≤ content.length := by
    unfold pieceLen
    omega
  have hpart := writePart_of_get? p fb (fun i hi => get?_cut hi) (size_cut _)
    (hlen'.trans_lt (by omega)) hn (hpb.trans hlen'.ge) hfile
  rw [hlen', window_bytes hp hpb path] at hpart
  exact hpart

end Write

/-! ### What a download writes -/

/-- The windows of the entries of one file. -/
def windowsOf (pl total path : ℕ) (es : List FileInfo) : List Window :=
  (es.filter fun e => e.path = path).map (window pl total)

/-- Copies the windows of entries into the files. -/
def paint (pl : ℕ) (lens : List ℕ) (content : List UInt8) (disk : Disk) (es : List FileInfo) :
    Disk := fun i =>
  (disk i).map fun file =>
    copyWindows (content.drop (lens.take i).sum) file (windowsOf pl content.length i es)

section Paint

variable {pl : ℕ} {lens : List ℕ} {content : List UInt8}

theorem paint_nil (disk : Disk) : paint pl lens content disk [] = disk := by
  funext i
  simp [paint, windowsOf, copyWindows]

theorem paint_append (disk : Disk) (es es' : List FileInfo) :
    paint pl lens content (paint pl lens content disk es) es' =
      paint pl lens content disk (es ++ es') := by
  funext i
  simp only [paint, windowsOf, List.filter_append, List.map_append, Option.map_map]
  congr 1
  funext file
  simp [copyWindows, List.foldl_append]

theorem paint_isSome (disk : Disk) (es : List FileInfo) (i : ℕ) :
    (paint pl lens content disk es i).isSome = (disk i).isSome := by
  simp [paint]

/-- An entry of the layout of the content that a piece uses. -/
def Usable (pl : ℕ) (lens : List ℕ) (content : List UInt8) (p : ℕ) (e : FileInfo) : Prop :=
  ∃ i n pb fb, lens[i]? = some n ∧ e = entry i p pb fb n ∧
    p * pl + pb = (lens.take i).sum + fb ∧ pb ≤ pieceLen pl content.length p

/-- Writing a piece paints its entries. -/
theorem foldlM_writePart (hlen : content.length < 2 ^ 63) (hlens : ∀ n ∈ lens, n < 2 ^ 63) (p : ℕ) :
    ∀ (es : List FileInfo) (disk : Disk), (∀ e ∈ es, Usable pl lens content p e) →
      (∀ i, (disk i).isSome ↔ i < lens.length) →
      es.foldlM (writePart (cut (pieceText pl content p))) disk =
        .ok (paint pl lens content disk es)
  | [], disk, _, _ => by rw [paint_nil]; rfl
  | e :: es, disk, hes, hdisk => by
    obtain ⟨i, n, pb, fb, hi, rfl, hp, hpb⟩ := hes e (by simp)
    obtain ⟨hil, hget⟩ := List.getElem?_eq_some_iff.mp hi
    obtain ⟨file, hfile⟩ := Option.isSome_iff_exists.mp ((hdisk i).mpr hil)
    have hn : n < 2 ^ 63 := hlens n (List.mem_of_getElem? hi)
    have hone : Function.update disk i (some (copyWindow (content.drop (lens.take i).sum) file
        (window pl content.length (entry i p pb fb n)))) =
          paint pl lens content disk [entry i p pb fb n] := by
      funext j
      by_cases hj : j = i
      · subst hj
        have hpath : (entry j p pb fb n).path = j := rfl
        simp [paint, windowsOf, hfile, hpath, copyWindows]
      · have hpath : (entry i p pb fb n).path ≠ j := fun h => hj h.symm
        simp [paint, windowsOf, hj, hpath, copyWindows]
    have ih := foldlM_writePart hlen hlens p es (paint pl lens content disk [entry i p pb fb n])
      (fun e' he' => hes e' (by simp [he'])) (fun j => by rw [paint_isSome]; exact hdisk j)
    rw [List.foldlM_cons, writePart_entry hlen hn hp hpb hfile, hone]
    simp only [bind, Except.bind]
    rw [ih, paint_append]
    rfl

/-- Writing pieces one after the other paints the entries of all of them. -/
theorem foldlM_writePieceToFile (hlen : content.length < 2 ^ 63) (hlens : ∀ n ∈ lens, n < 2 ^ 63)
    {m : Manager}
    (hm : ∀ e ∈ m.piecesByFiles, e.pieceIndex * pl < content.length →
      Usable pl lens content e.pieceIndex e) :
    ∀ (order : List ℕ) (disk : Disk), (∀ p ∈ order, p * pl < content.length ∧
        ∃ e ∈ m.piecesByFiles, e.pieceIndex = p) →
      (∀ i, (disk i).isSome ↔ i < lens.length) →
      (order.map (pieceOf pl content)).foldlM (writePieceToFile m) disk =
        .ok (paint pl lens content disk
          (order.flatMap fun p => m.piecesByFiles.filter fun e => e.pieceIndex = p))
  | [], disk, _, _ => by rw [List.flatMap_nil, paint_nil]; rfl
  | p :: order, disk, hord, hdisk => by
    obtain ⟨hp, e, he, hep⟩ := hord p (by simp)
    set es := m.piecesByFiles.filter fun e => e.pieceIndex = p with hes
    have hne : es ≠ [] := List.ne_nil_of_mem (List.mem_filter.mpr ⟨he, by simpa using hep⟩)
    have husable : ∀ e ∈ es, Usable pl lens content p e := by
      intro e' he'
      obtain ⟨hmem, hidx⟩ := List.mem_filter.mp he'
      obtain rfl : e'.pieceIndex = p := by simpa using hidx
      exact hm e' hmem hp
    have hwrite : writePieceToFile m disk (pieceOf pl content p) =
        .ok (paint pl lens content disk es) := by
      have hdef : writePieceToFile m disk (pieceOf pl content p) = if es = [] then .error .outOfRange
          else es.foldlM (writePart (cut (pieceText pl content p))) disk := rfl
      rw [hdef, if_neg hne]
      exact foldlM_writePart hlen hlens p es disk husable hdisk
    have ih := foldlM_writePieceToFile hlen hlens hm order (paint pl lens content disk es)
      (fun p' hp' => hord p' (by simp [hp'])) (fun j => by rw [paint_isSome]; exact hdisk j)
    rw [List.map_cons, List.foldlM_cons, hwrite]
    simp only [bind, Except.bind]
    rw [ih, paint_append, List.flatMap_cons]

end Paint

/-! ### The files after a download -/

section Download

variable {pl : ℕ} {lens : List ℕ} {content : List UInt8} {entries : List FileInfo}

theorem usable_of_layout (hcontent : content.length = lens.sum) (hpos : ∀ n ∈ lens, 0 < n)
    (hlay : IsLayout pl content.length 0 0 lens entries) {e : FileInfo} (he : e ∈ entries)
    (hused : e.pieceIndex * pl < content.length) : Usable pl lens content e.pieceIndex e := by
  obtain ⟨i, n, p, pb, fb, hi, rfl, hp, hle, hz⟩ := hlay.place e he
  rw [Nat.zero_add] at hp
  refine ⟨i, n, pb, fb, hi, by rw [Nat.zero_add]; rfl, hp, ?_⟩
  change p * pl < content.length at hused
  change pb ≤ pieceLen pl content.length p
  unfold pieceLen
  rcases hz with rfl | rfl
  · omega
  · -- the file starts in the piece, and so before the end of the content
    have hn := hpos n (List.mem_of_getElem? hi)
    obtain ⟨hil, hget⟩ := List.getElem?_eq_some_iff.mp hi
    have hsum : (lens.take (i + 1)).sum ≤ lens.sum := by
      conv_rhs => rw [← List.take_append_drop (i + 1) lens, List.sum_append]
      omega
    rw [List.take_add_one, hi, List.sum_append] at hsum
    simp only [Option.toList_some, List.sum_singleton] at hsum
    omega

/-- Every position of the content lies in a file. -/
theorem exists_file_of_lt : ∀ (lens : List ℕ) {x : ℕ}, x < lens.sum →
    ∃ i n, lens[i]? = some n ∧ (lens.take i).sum ≤ x ∧ x < (lens.take i).sum + n
  | [], x, h => by simp at h
  | n :: lens, x, h => by
    rw [List.sum_cons] at h
    rcases Nat.lt_or_ge x n with hx | hx
    · exact ⟨0, n, rfl, by simp, by simpa using hx⟩
    · obtain ⟨i, m, hi, h1, h2⟩ := exists_file_of_lt lens (x := x - n) (by omega)
      refine ⟨i + 1, m, by simpa using hi, ?_, ?_⟩ <;> rw [List.take_succ_cons, List.sum_cons] <;>
        omega

/-- Every piece has an entry. -/
theorem exists_entry_of_piece (hpl : 0 < pl) (hcontent : content.length = lens.sum)
    (hlay : IsLayout pl content.length 0 0 lens entries) {p : ℕ} (hp : p * pl < content.length) :
    ∃ e ∈ entries, e.pieceIndex = p := by
  obtain ⟨i, n, hi, h1, h2⟩ := exists_file_of_lt lens (hcontent ▸ hp)
  obtain ⟨e, he, hpath, hused, hh⟩ := hlay.cover i n hi (p * pl - (lens.take i).sum) (by omega)
  obtain ⟨j, n', p', pb, fb, hj, rfl, hp', hle, hz⟩ := hlay.place e he
  obtain rfl : j = i := by
    change 0 + j = 0 + i at hpath
    omega
  refine ⟨_, he, ?_⟩
  rw [window_entry] at hh
  obtain ⟨hh1, hh2⟩ := hh
  simp only [pieceLen] at hh1 hh2
  change p' = p
  -- the piece of the entry starts at most a piece length before
  have hlo : p' * pl ≤ p * pl := by omega
  have hhi : p * pl < (p' + 1) * pl := by
    rw [Nat.add_mul, Nat.one_mul]
    omega
  have h1 := Nat.le_of_mul_le_mul_right hlo hpl
  have h2 := Nat.lt_of_mul_lt_mul_right hhi
  omega

/-- The windows written to a file in a download of all pieces. -/
theorem mem_windowsOf_iff {order : List ℕ} {w : Window} {i : ℕ}
    (hord : ∀ p, p ∈ order ↔ p * pl < content.length) :
    w ∈ windowsOf pl content.length i
        (order.flatMap fun p => entries.filter fun e => e.pieceIndex = p) ↔
      ∃ e ∈ entries, e.path = i ∧ e.pieceIndex * pl < content.length ∧
        window pl content.length e = w := by
  simp only [windowsOf, List.mem_map, List.mem_filter, List.mem_flatMap, decide_eq_true_eq]
  constructor
  · rintro ⟨e, ⟨⟨p, hp, he, rfl⟩, hpath⟩, rfl⟩
    exact ⟨e, he, hpath, (hord _).mp hp, rfl⟩
  · rintro ⟨e, he, hpath, hp, rfl⟩
    exact ⟨e, ⟨⟨_, (hord _).mpr hp, he, rfl⟩, hpath⟩, rfl⟩

/-- **A file is downloaded rightly exactly if its entries stay within it.** -/
theorem paint_eq_slices_iff (hcontent : content.length = lens.sum) (hpos : ∀ n ∈ lens, 0 < n)
    (hlay : IsLayout pl content.length 0 0 lens entries) {order : List ℕ}
    (hord : ∀ p, p ∈ order ↔ p * pl < content.length) {sha1s : List UInt8} :
    paint pl lens content (createFiles ⟨pl, none, lens.map Nat.cast, sha1s⟩)
        (order.flatMap fun p => entries.filter fun e => e.pieceIndex = p) = slices lens content ↔
      AllWithin pl content.length entries := by
  set ws := fun i => windowsOf pl content.length i
    (order.flatMap fun p => entries.filter fun e => e.pieceIndex = p) with hws
  -- one file
  have key : ∀ i n : ℕ, lens[i]? = some n →
      (copyWindows (content.drop (lens.take i).sum) (createFile n) (ws i) =
          (content.drop (lens.take i).sum).take n ↔
        ∀ e ∈ entries, e.path = i → e.pieceIndex * pl < content.length →
          Within pl content.length n e) := by
    intro i n hi
    have hlen : (createFile (n : ℤ)).length = n := by simp [createFile]
    have hbound : ∀ w ∈ ws i, w.start + w.size ≤ (content.drop (lens.take i).sum).length := by
      intro w hw
      obtain ⟨e, he, hpath, hused, rfl⟩ := (mem_windowsOf_iff hord).mp hw
      obtain ⟨j, n', pb, fb, hj, hej, hp, hpb⟩ := usable_of_layout hcontent hpos hlay he hused
      generalize e.pieceIndex = p at *
      subst hej
      obtain rfl : j = i := hpath
      rw [window_entry, List.length_drop]
      simp only [pieceLen] at hpb ⊢
      omega
    have hcover : ∀ x < (createFile (n : ℤ)).length, ∃ w ∈ ws i, w.Holds x := by
      intro x hx
      obtain ⟨e, he, hpath, hused, hh⟩ := hlay.cover i n hi x (by omega)
      exact ⟨_, (mem_windowsOf_iff hord).mpr ⟨e, he, by omega, hused, rfl⟩, hh⟩
    have h := copyWindows_eq_take_iff hbound hcover
    rw [hlen] at h
    rw [h]
    constructor
    · intro hw e he hpath hused
      exact hw _ ((mem_windowsOf_iff hord).mpr ⟨e, he, hpath, hused, rfl⟩)
    · intro hw w hmem
      obtain ⟨e, he, hpath, hused, rfl⟩ := (mem_windowsOf_iff hord).mp hmem
      exact hw e he hpath hused
  have hdisk : ∀ i, paint pl lens content (createFiles ⟨pl, none, lens.map Nat.cast, sha1s⟩)
      (order.flatMap fun p => entries.filter fun e => e.pieceIndex = p) i =
        lens[i]?.map fun n : ℕ =>
          copyWindows (content.drop (lens.take i).sum) (createFile n) (ws i) := by
    intro i
    simp [paint, createFiles, hws, Function.comp_def]
  constructor
  · intro h e he hused
    obtain ⟨i, n, p, pb, fb, hi, hej, -⟩ := hlay.place e he
    have hpath : e.path = i := by rw [hej, Nat.zero_add]; rfl
    have hsize : e.size.toNat = n := by rw [hej]; simp [entry]
    rw [hsize]
    refine (key i n hi).mp ?_ e he hpath hused
    have hfile := congrFun h i
    rw [hdisk i, hi] at hfile
    simpa [slices, hi] using hfile
  · intro h
    funext i
    rw [hdisk i, slices]
    cases hi : lens[i]? with
    | none => rfl
    | some n =>
      simp only [Option.map_some, Option.some.injEq]
      refine (key i n hi).mpr fun e he hpath hused => ?_
      obtain ⟨j, n', p, pb, fb, hj, hej, -⟩ := hlay.place e he
      have hsize : e.size.toNat = n' := by rw [hej]; simp [entry]
      obtain rfl : j = i := by
        rw [hej] at hpath
        change 0 + j = i at hpath
        omega
      rw [hi] at hj
      obtain rfl : n = n' := Option.some.inj hj
      exact hsize ▸ h e he hused

/-- **A multi-file torrent is downloaded rightly exactly if every file but the last one fits.** -/
theorem download_iff (pl : ℕ) (hpl : 0 < pl) (lens : List ℕ) (hpos : ∀ n ∈ lens, 0 < n)
    (content : List UInt8) (hcontent : content.length = lens.sum) (hsum : lens.sum < 2 ^ 63)
    (order : List ℕ) (horder : order.Perm (List.range ((lens.sum + pl - 1) / pl)))
    (sha1s : List UInt8) :
    (∃ bound, ∀ fuel ≥ bound, download fuel ⟨pl, none, lens.map Nat.cast, sha1s⟩
        (order.map (pieceOf pl content)) = .ok (slices lens content)) ↔
      Fits pl 0 lens := by
  have hord : ∀ p, p ∈ order ↔ p * pl < content.length := by
    intro p
    rw [horder.mem_iff, List.mem_range, hcontent, Nat.lt_div_iff_mul_lt hpl]
    omega
  have hlens : ∀ n ∈ lens, n < 2 ^ 63 := fun n hn =>
    lt_of_le_of_lt (List.single_le_sum (fun _ _ => Nat.zero_le _) n hn) hsum
  -- what a download with enough fuel gives
  have hdown : ∀ fuel, lens.sum ≤ fuel → ∃ entries,
      download fuel ⟨pl, none, lens.map Nat.cast, sha1s⟩ (order.map (pieceOf pl content)) =
        .ok (paint pl lens content (createFiles ⟨pl, none, lens.map Nat.cast, sha1s⟩)
          (order.flatMap fun p => entries.filter fun e => e.pieceIndex = p)) ∧
      IsLayout pl content.length 0 0 lens entries ∧
      (AllWithin pl content.length entries ↔ Fits pl 0 lens) := by
    intro fuel hfuel
    obtain ⟨entries, c', b', hadd, hlay, hfits⟩ := addFiles_spec hpl lens 0 0 0 hfuel
      (Nat.zero_le pl) (show 0 * pl + 0 + lens.sum = content.length by omega)
    have hfits := hfits hpos fun _ => rfl
    simp only [Nat.zero_mul, Nat.add_zero] at hlay hfits
    refine ⟨entries, ?_, hlay, hfits⟩
    simp only [download, fillFiles_of_addFiles hadd, bind, Except.bind]
    refine foldlM_writePieceToFile (hcontent ▸ hsum) hlens
      (m := ⟨toSize pl, toSize b', entries⟩)
      (fun e he hused => usable_of_layout hcontent hpos hlay he hused) order _
      (fun p hp => ⟨(hord p).mp hp, exists_entry_of_piece hpl hcontent hlay ((hord p).mp hp)⟩)
      fun i => ?_
    simp [createFiles]
  constructor
  · rintro ⟨bound, h⟩
    obtain ⟨entries, hok, hlay, hfits⟩ := hdown (max bound lens.sum) (le_max_right _ _)
    rw [h _ (le_max_left _ _), Except.ok.injEq] at hok
    exact hfits.mp ((paint_eq_slices_iff hcontent hpos hlay hord).mp hok.symm)
  · intro hfit
    refine ⟨lens.sum, fun fuel hfuel => ?_⟩
    obtain ⟨entries, hok, hlay, hfits⟩ := hdown fuel hfuel
    rw [hok, (paint_eq_slices_iff hcontent hpos hlay hord).mpr (hfits.mpr hfit)]

end Download

/-- A first file that ends inside the first piece, and pieces written backwards. -/
theorem download_short_first :
    ∃ bound, ∀ fuel ≥ bound, download fuel ⟨2, none, [1, 3], []⟩
      ([1, 0].map (pieceOf 2 [10, 20, 30, 40])) = .ok (slices [1, 3] [10, 20, 30, 40]) :=
  (download_iff 2 (by decide) [1, 3] (by decide) [10, 20, 30, 40] (by decide) (by decide) [1, 0]
    (by decide) []).mpr (by simp [Fits, FileFits])

/-- With pieces of three bytes, a file of five bytes followed by one of a single byte: the second
entry of the first file makes it one byte longer. -/
theorem not_download_five_one :
    ¬ ∃ bound, ∀ fuel ≥ bound, download fuel ⟨3, none, [5, 1], []⟩
      ([0, 1].map (pieceOf 3 [10, 20, 30, 40, 50, 60])) =
        .ok (slices [5, 1] [10, 20, 30, 40, 50, 60]) := by
  rintro ⟨bound, h⟩
  have hgrown : (download (bound + 1) ⟨3, none, [5, 1], []⟩
      ([0, 1].map (pieceOf 3 [10, 20, 30, 40, 50, 60]))).map (fun disk => disk 0) =
        .ok (some [10, 20, 30, 40, 50, 60]) := rfl
  rw [h (bound + 1) (Nat.le_succ bound)] at hgrown
  simp [Except.map, slices] at hgrown

end CppTorrent.Files.MultiFile
