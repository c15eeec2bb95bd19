import ConfigSchema.Proofs.Merging

/-!
# `Schema.merge` is associative

A base schema may be extended by a plugin's, and the result by an environment's; or the plugin's schema may be
extended by the environment's first. Both succeed in the same cases and with the same result, as long as every
declared key that is called an object shows declared keys (`Schema.Transparent`). Without that, a schema may have
the name of one that it cannot be merged with.

The argument goes from keys to schemas. What three sides declare for one key is settled alike in either order
(`combine_assoc`, from `settleShared_assoc` for a key that all three declare), if the schemas under it are merged
alike; so the lists of declared keys are (`merges_assoc`), and so, by induction on the first side, the schemas.
-/

namespace ConfigSchema

namespace Schema

/-! ## Schemas that show their keys -/

/-- If the schema is called an object, it shows declared keys. -/
def ShowsKeys (s : Schema) : Prop := s.name = Kind.object.name → s.closedKeys?.isSome

/-- **Transparent schemas.** All their declared keys, at every level through declared keys, show their own keys if
    they are called objects. -/
inductive Transparent : Schema → Prop
  | intro {s : Schema} (here : ∀ keys, s.closedKeys? = some keys → ∀ field ∈ keys.fields, field.2.ShowsKeys)
      (below : ∀ keys, s.closedKeys? = some keys → ∀ field ∈ keys.fields, field.2.Transparent) : Transparent s

/-- A schema is transparent if whatever is called an object in it shows its keys. -/
theorem transparent_of_everywhere {s : Schema}
    (h : s.Everywhere fun rule => rule.name = Kind.object.name → rule.closedKeys?.isSome) : s.Transparent := by
  induction s using Schema.induction with
  | step s ih =>
    refine .intro (fun keys hk field hf => ?_) fun keys hk field hf => ?_
    · have hfield := ((h.closedKeys hk).2 field hf).here
      rwa [← name_eq, ← closedKeys?_eq] at hfield
    · obtain ⟨default?, rule⟩ := s
      cases rule with
      | object fields suggest =>
          obtain rfl : ⟨fields, suggest⟩ = keys := Option.some.inj hk
          have hpart : field.2 ∈ fields.map Prod.snd := List.mem_map_of_mem hf
          exact ih field.2 hpart (h.part hpart)
      | compose first second =>
          have hsecond : second ∈ [first, second] := List.mem_cons_of_mem _ List.mem_cons_self
          obtain ⟨-, below⟩ := ih second hsecond (h.part hsecond)
          exact below keys hk field hf
      | _ => exact absurd hk (by simp [closedKeys?, Rule.closedKeys?])

/-- A schema that shows its keys can be merged if it is called an object. -/
theorem ShowsKeys.isSome_mergeable?_iff {s : Schema} (h : s.ShowsKeys) :
    s.mergeable?.isSome ↔ s.name = Kind.object.name := by
  unfold mergeable?
  split <;> rename_i hname
  · exact iff_of_true (h hname) hname
  · exact iff_of_false Bool.false_ne_true hname

theorem name_congr {s t : Schema} (hrule : t.rule = s.rule) : t.name = s.name := by
  rw [name_eq, hrule, ← name_eq]

theorem ShowsKeys.congr {s t : Schema} (h : s.ShowsKeys) (hrule : t.rule = s.rule) : t.ShowsKeys := by
  unfold ShowsKeys at h ⊢
  rwa [name_congr hrule, closedKeys?_eq, hrule, ← closedKeys?_eq]

/-! ## One key -/

section Key

variable {options : MergeOptions} {key : String} {first second third s m : Schema}

/-- Schemas that are called objects are settled by merging them. -/
theorem settleShared_of_merge (h : merge options first second = .ok m)
    (hdefault : s.default? = second.default?.or first.default?) (hrule : s.rule = m.rule) :
    settleShared options key first second = .ok s := by
  obtain ⟨left, right, merged, hleft, hright, -, -⟩ := merges_of_merge h
  refine settleShared_eq_ok_iff.mpr ⟨hdefault, ?_⟩
  rw [if_pos ⟨Option.isSome_of_eq_some hleft, Option.isSome_of_eq_some hright⟩]
  exact ⟨m, h, hrule⟩

/-- Other schemas of one name are settled on the second. -/
theorem settleShared_of_name (hsecond : second.ShowsKeys) (hobject : second.name ≠ Kind.object.name)
    (hname : first.name = second.name) (hdefault : s.default? = second.default?.or first.default?)
    (hrule : s.rule = second.rule) : settleShared options key first second = .ok s := by
  refine settleShared_eq_ok_iff.mpr ⟨hdefault, ?_⟩
  rw [if_neg fun h => hobject (hsecond.isSome_mergeable?_iff.mp h.2)]
  exact ⟨hname, hrule⟩

/-- There is no other way to settle a key of schemas that show their keys. -/
theorem settleShared_cases (hfirst : first.ShowsKeys) (hsecond : second.ShowsKeys)
    (h : settleShared options key first second = .ok s) :
    first.name = second.name ∧ s.default? = second.default?.or first.default? ∧
      ((second.name = Kind.object.name ∧ ∃ m, merge options first second = .ok m ∧ s.rule = m.rule) ∨
        (second.name ≠ Kind.object.name ∧ s.rule = second.rule)) := by
  obtain ⟨hdefault, hrule⟩ := settleShared_eq_ok_iff.mp h
  split at hrule <;> rename_i hboth
  · have hname : first.name = Kind.object.name := hfirst.isSome_mergeable?_iff.mp hboth.1
    have hname' : second.name = Kind.object.name := hsecond.isSome_mergeable?_iff.mp hboth.2
    exact ⟨hname.trans hname'.symm, hdefault, .inl ⟨hname', hrule⟩⟩
  · refine ⟨hrule.1, hdefault, .inr ⟨fun hobject => hboth ⟨?_, ?_⟩, hrule.2⟩⟩
    · exact hfirst.isSome_mergeable?_iff.mpr (hrule.1.trans hobject)
    · exact hsecond.isSome_mergeable?_iff.mpr hobject

/-- What a key is settled on is called what both sides are called, and shows its keys. -/
theorem settled_showsKeys (hfirst : first.ShowsKeys) (hsecond : second.ShowsKeys)
    (h : settleShared options key first second = .ok s) : s.name = second.name ∧ s.ShowsKeys := by
  obtain ⟨-, -, ⟨hobject, m, hm, hrule⟩ | ⟨-, hrule⟩⟩ := settleShared_cases hfirst hsecond h
  · obtain ⟨left, right, merged, -, -, -, rfl⟩ := merges_of_merge hm
    exact ⟨(name_congr hrule).trans hobject.symm, ShowsKeys.congr (fun _ => rfl) hrule⟩
  · exact ⟨name_congr hrule, hsecond.congr hrule⟩

/-- **A key that all three sides declare.** If the schemas under it are merged alike in either order, the key is
    settled alike. -/
theorem settleShared_assoc (hfirst : first.ShowsKeys) (hsecond : second.ShowsKeys) (hthird : third.ShowsKeys)
    (hmerge : ∀ m, (∃ ab, merge options first second = .ok ab ∧ merge options ab third = .ok m) ↔
      ∃ bc, merge options second third = .ok bc ∧ merge options first bc = .ok m) :
    (∃ t, settleShared options key first second = .ok t ∧ settleShared options key t third = .ok s) ↔
      ∃ t, settleShared options key second third = .ok t ∧ settleShared options key first t = .ok s := by
  constructor
  · rintro ⟨t, ht, hs⟩
    obtain ⟨htname, htshows⟩ := settled_showsKeys hfirst hsecond ht
    obtain ⟨hname, htdefault, htrule⟩ := settleShared_cases hfirst hsecond ht
    obtain ⟨hname', hdefault, hrule⟩ := settleShared_cases htshows hthird hs
    rw [htname] at hname'
    rw [htdefault, ← Option.or_assoc] at hdefault
    -- Either all three are called objects, and are merged, or they share another name, and the third one counts.
    rcases hrule with ⟨hobject, m, hm, hrule⟩ | ⟨hobject, hrule⟩
    · obtain ⟨-, ab, hab, htrule⟩ := htrule.resolve_right fun h => h.1 (hname'.trans hobject)
      obtain ⟨bc, hbc, hm'⟩ := (hmerge m).mp ⟨ab, hab, merge_congr hm htrule.symm rfl⟩
      refine ⟨⟨_, bc.rule⟩, settleShared_of_merge hbc rfl rfl, ?_⟩
      exact settleShared_of_merge (merge_congr hm' rfl rfl) hdefault hrule
    · refine ⟨⟨_, third.rule⟩, settleShared_of_name hthird hobject hname' rfl rfl, ?_⟩
      have htname' : Schema.name ⟨third.default?.or second.default?, third.rule⟩ = third.name := name_congr rfl
      refine settleShared_of_name (hthird.congr rfl) (htname' ▸ hobject) ?_ hdefault hrule
      exact (hname.trans hname').trans htname'.symm
  · rintro ⟨t, ht, hs⟩
    obtain ⟨htname, htshows⟩ := settled_showsKeys hsecond hthird ht
    obtain ⟨hname', htdefault, htrule⟩ := settleShared_cases hsecond hthird ht
    obtain ⟨hname, hdefault, hrule⟩ := settleShared_cases hfirst htshows hs
    rw [htname] at hname hrule
    rw [htdefault, Option.or_assoc] at hdefault
    rcases hrule with ⟨hobject, m, hm, hrule⟩ | ⟨hobject, hrule⟩
    · obtain ⟨-, bc, hbc, htrule⟩ := htrule.resolve_right fun h => h.1 hobject
      obtain ⟨ab, hab, hm'⟩ := (hmerge m).mpr ⟨bc, hbc, merge_congr hm rfl htrule.symm⟩
      refine ⟨⟨_, ab.rule⟩, settleShared_of_merge hab rfl rfl, ?_⟩
      exact settleShared_of_merge (merge_congr hm' rfl rfl) hdefault hrule
    · obtain ⟨-, htrule⟩ := htrule.resolve_left fun h => hobject h.1
      have hname'' : first.name = second.name := hname.trans hname'.symm
      refine ⟨⟨_, second.rule⟩, settleShared_of_name hsecond (hname' ▸ hobject) hname'' rfl rfl, ?_⟩
      have htname' : Schema.name ⟨second.default?.or first.default?, second.rule⟩ = second.name := name_congr rfl
      exact settleShared_of_name hthird hobject (htname'.trans hname') hdefault (hrule.trans htrule)

/-- Nothing is settled with a side that does not declare the key. -/
theorem combine_none_right (key : String) (merged? : Option Schema) :
    combine .standard key merged? none = .ok merged? := by
  cases merged? <;> rfl

/-- **One key.** What three sides declare for it is settled alike in either order, if, where all three declare it,
    the schemas under it are merged alike. -/
theorem combine_assoc {first? second? third? merged? : Option Schema}
    (h : ∀ first second third, first? = some first → second? = some second → third? = some third →
      (first.ShowsKeys ∧ second.ShowsKeys ∧ third.ShowsKeys) ∧
        ∀ m, (∃ ab, merge .standard first second = .ok ab ∧ merge .standard ab third = .ok m) ↔
          ∃ bc, merge .standard second third = .ok bc ∧ merge .standard first bc = .ok m) :
    (∃ t?, combine .standard key first? second? = .ok t? ∧ combine .standard key t? third? = .ok merged?) ↔
      ∃ t?, combine .standard key second? third? = .ok t? ∧ combine .standard key first? t? = .ok merged? := by
  -- A side that does not declare the key drops out; with two sides left there is but one order.
  cases first? with
  | none => simp [combine]
  | some first =>
    cases second? with
    | none => simp [combine, settle, MergeOptions.standard, Except.map]
    | some second =>
      cases third? with
      | none => simp [combine_none_right]
      | some third =>
          obtain ⟨⟨hfirst, hsecond, hthird⟩, hmerge⟩ := h first second third rfl rfl rfl
          have hcombine : ∀ {s t : Schema} {t? : Option Schema}, combine .standard key (some s) (some t) = .ok t? ↔
              ∃ u, settleShared .standard key s t = .ok u ∧ some u = t? := by
            intro s t t?
            show (settleShared .standard key s t).map some = .ok t? ↔ _
            cases settleShared .standard key s t <;> simp [Except.map]
          have hassoc : ∀ s, (∃ t, settleShared .standard key first second = .ok t ∧
              settleShared .standard key t third = .ok s) ↔ ∃ t, settleShared .standard key second third = .ok t ∧
              settleShared .standard key first t = .ok s :=
            fun s => settleShared_assoc hfirst hsecond hthird hmerge
          constructor
          · rintro ⟨_, ht, hs⟩
            obtain ⟨t, ht', rfl⟩ := hcombine.mp ht
            obtain ⟨s, hs', rfl⟩ := hcombine.mp hs
            obtain ⟨u, hu, hus⟩ := (hassoc s).mp ⟨t, ht', hs'⟩
            exact ⟨some u, hcombine.mpr ⟨u, hu, rfl⟩, hcombine.mpr ⟨s, hus, rfl⟩⟩
          · rintro ⟨_, ht, hs⟩
            obtain ⟨t, ht', rfl⟩ := hcombine.mp ht
            obtain ⟨s, hs', rfl⟩ := hcombine.mp hs
            obtain ⟨u, hu, hus⟩ := (hassoc s).mpr ⟨t, ht', hs'⟩
            exact ⟨some u, hcombine.mpr ⟨u, hu, rfl⟩, hcombine.mpr ⟨s, hus, rfl⟩⟩

end Key

/-! ## The declared keys -/

section Fields

variable {first second third merged : Fields Schema}

/-- In either order, the keys are those of the first side, then the new ones of the second, then those of the third. -/
theorem mergedKeys_assoc (keys keys' keys'' : List String) :
    keys ++ keys'.filter (· ∉ keys) ++ keys''.filter (· ∉ keys ++ keys'.filter (· ∉ keys)) =
      keys ++ (keys' ++ keys''.filter (· ∉ keys')).filter (· ∉ keys) := by
  rw [List.filter_append, List.filter_filter, List.append_assoc]
  refine congrArg (fun new => keys ++ (_ ++ new)) (List.filter_congr fun key _ => ?_)
  rw [Bool.eq_iff_iff]
  simp
  tauto

/-- **Declared keys are merged alike in either order**, if each of them is. -/
theorem merges_assoc (hfirst : first.keys.Nodup) (hsecond : second.keys.Nodup)
    (hentry : ∀ key merged?,
      (∃ t?, combine .standard key (first.lookup key) (second.lookup key) = .ok t? ∧
        combine .standard key t? (third.lookup key) = .ok merged?) ↔
      ∃ t?, combine .standard key (second.lookup key) (third.lookup key) = .ok t? ∧
        combine .standard key (first.lookup key) t? = .ok merged?) :
    (∃ ab, Merges .standard first second ab ∧ Merges .standard ab third merged) ↔
      ∃ bc, Merges .standard second third bc ∧ Merges .standard first bc merged := by
  constructor
  · rintro ⟨ab, hab, hmerged⟩
    have hother := fun key => (hentry key (merged.lookup key)).mp ⟨_, hab.entry key, hmerged.entry key⟩
    obtain ⟨bc, hbc⟩ := exists_merges hsecond fun key => (hother key).imp fun _ h => h.1
    refine ⟨bc, hbc, ?_, fun key => ?_⟩
    · rw [hmerged.keys, hab.keys, hbc.keys, mergedKeys_assoc]
    · obtain ⟨t?, ht, h⟩ := hother key
      rwa [Except.ok.inj ((hbc.entry key).symm.trans ht)]
  · rintro ⟨bc, hbc, hmerged⟩
    have hother := fun key => (hentry key (merged.lookup key)).mpr ⟨_, hbc.entry key, hmerged.entry key⟩
    obtain ⟨ab, hab⟩ := exists_merges hfirst fun key => (hother key).imp fun _ h => h.1
    refine ⟨ab, hab, ?_, fun key => ?_⟩
    · rw [hmerged.keys, hab.keys, hbc.keys, mergedKeys_assoc]
    · obtain ⟨t?, ht, h⟩ := hother key
      rwa [Except.ok.inj ((hab.entry key).symm.trans ht)]

end Fields

/-! ## The schemas -/

/-- **Merging is associative.** `a` merged with `b` and then with `c` is `a` merged with what `b` and `c` merge to:
    the one succeeds with `m` exactly if the other does. -/
theorem merge_assoc {a b c : Schema} (ha : a.Transparent) (hb : b.Transparent) (hc : c.Transparent)
    (hka : a.DistinctKeys) (hkb : b.DistinctKeys) (hkc : c.DistinctKeys) (m : Schema) :
    (∃ ab, merge .standard a b = .ok ab ∧ merge .standard ab c = .ok m) ↔
      ∃ bc, merge .standard b c = .ok bc ∧ merge .standard a bc = .ok m := by
  induction ha generalizing b c m with
  | @intro a hshows _ ih =>
    obtain ⟨hbshows, hbbelow⟩ := hb
    obtain ⟨hcshows, hcbelow⟩ := hc
    have hkeys : ∀ {s : Schema} {keys : ClosedKeys}, s.DistinctKeys → s.mergeable? = some keys →
        keys.fields.keys.Nodup :=
      fun hs hk => (hs.closedKeys (mergeable?_eq_some_iff.mp hk).2).1
    have hfields : ∀ {left mid right : ClosedKeys}, a.mergeable? = some left → b.mergeable? = some mid →
        c.mergeable? = some right → ∀ merged,
        (∃ ab, Merges .standard left.fields mid.fields ab ∧ Merges .standard ab right.fields merged) ↔
          ∃ bc, Merges .standard mid.fields right.fields bc ∧ Merges .standard left.fields bc merged := by
      intro left mid right hleft hmid hright merged
      -- The induction hypothesis is about a key of `a`; it is needed where `b` and `c` declare it as well.
      refine merges_assoc (hkeys hka hleft) (hkeys hkb hmid) fun key merged? => combine_assoc ?_
      intro first second third hfirst hsecond hthird
      have hleft' := (mergeable?_eq_some_iff.mp hleft).2
      have hmid' := (mergeable?_eq_some_iff.mp hmid).2
      have hright' := (mergeable?_eq_some_iff.mp hright).2
      have hf := Fields.mem_of_lookup hfirst
      have hs := Fields.mem_of_lookup hsecond
      have ht := Fields.mem_of_lookup hthird
      refine ⟨⟨hshows left hleft' _ hf, hbshows mid hmid' _ hs, hcshows right hright' _ ht⟩, ?_⟩
      exact ih left hleft' _ hf (hbbelow mid hmid' _ hs) (hcbelow right hright' _ ht)
        ((hka.closedKeys hleft').2 _ hf) ((hkb.closedKeys hmid').2 _ hs) ((hkc.closedKeys hright').2 _ ht)
    constructor
    · rintro ⟨ab, hab, hm⟩
      obtain ⟨left, mid, both, hleft, hmid, hboth, rfl⟩ := merges_of_merge hab
      obtain ⟨_, right, merged, hobject, hright, hmerged, rfl⟩ := merges_of_merge hm
      obtain rfl := Option.some.inj ((mergeable?_objectWith true both).symm.trans hobject)
      obtain ⟨bc, hbc, hmerged'⟩ := (hfields hleft hmid hright merged).mp ⟨both, hboth, hmerged⟩
      have hdistinct := hbc.nodup_keys (hkeys hkb hmid) (hkeys hkc hright)
      refine ⟨object bc, (merge_eq_ok_iff hmid hright (hkeys hkb hmid) (hkeys hkc hright)).mpr ⟨bc, hbc, rfl⟩, ?_⟩
      exact (merge_eq_ok_iff hleft (mergeable?_objectWith true bc) (hkeys hka hleft) hdistinct).mpr ⟨merged, hmerged', rfl⟩
    · rintro ⟨bc, hbc, hm⟩
      obtain ⟨mid, right, both, hmid, hright, hboth, rfl⟩ := merges_of_merge hbc
      obtain ⟨left, _, merged, hleft, hobject, hmerged, rfl⟩ := merges_of_merge hm
      obtain rfl := Option.some.inj ((mergeable?_objectWith true both).symm.trans hobject)
      obtain ⟨ab, hab, hmerged'⟩ := (hfields hleft hmid hright merged).mpr ⟨both, hboth, hmerged⟩
      have hdistinct := hab.nodup_keys (hkeys hka hleft) (hkeys hkb hmid)
      refine ⟨object ab, (merge_eq_ok_iff hleft hmid (hkeys hka hleft) (hkeys hkb hmid)).mpr ⟨ab, hab, rfl⟩, ?_⟩
      exact (merge_eq_ok_iff (mergeable?_objectWith true ab) hright hdistinct (hkeys hkc hright)).mpr ⟨merged, hmerged', rfl⟩

/-- Three layers share a nested schema, of which each declares something else, and two of them a default. -/
theorem merge_assoc_layers :
    let base := object [("mode", string.withDefault (.string "fast")), ("server", objectWith false [("host", string)])]
    let plugin := object [("server", (object [("host", string), ("tls", bool)]).withDefault (.object [])),
      ("plugins", array any)]
    let environment := object [("server", object [("tls", bool.withDefault (.bool true))]), ("mode", string)]
    let server := object [("host", string), ("tls", bool.withDefault (.bool true))]
    let layered := object [("mode", string.withDefault (.string "fast")), ("server", server.withDefault (.object [])),
      ("plugins", array any)]
    base.Transparent ∧ plugin.Transparent ∧ environment.Transparent ∧
      base.DistinctKeys ∧ plugin.DistinctKeys ∧ environment.DistinctKeys ∧
      (∃ ab, merge .standard base plugin = .ok ab ∧ merge .standard ab environment = .ok layered) ∧
      ∃ bc, merge .standard plugin environment = .ok bc ∧ merge .standard base bc = .ok layered := by
  intro base plugin environment server layered
  have hbase : base.Transparent := transparent_of_everywhere (by decide)
  have hplugin : plugin.Transparent := transparent_of_everywhere (by decide)
  have henvironment : environment.Transparent := transparent_of_everywhere (by decide)
  have hkbase : base.DistinctKeys := by decide
  have hkplugin : plugin.DistinctKeys := by decide
  have hkenvironment : environment.DistinctKeys := by decide
  have hfirst : ∃ ab, merge .standard base plugin = .ok ab ∧ merge .standard ab environment = .ok layered :=
    ⟨_, rfl, rfl⟩
  refine ⟨hbase, hplugin, henvironment, hkbase, hkplugin, hkenvironment, hfirst, ?_⟩
  exact (merge_assoc hbase hplugin henvironment hkbase hkplugin hkenvironment layered).mp hfirst

end Schema

end ConfigSchema
