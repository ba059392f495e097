import RoutePolicy.Rule

/-!
# Statements

The rules for the statements of a body: plain actions, and the `set` actions that give an attribute
a value.  An option that is a fixed word becomes a flag, written as true or false by every match;
numbers stay texts here.
-/

namespace RoutePolicy.Catalog

/-! ## Plain actions -/

/-- A plain action. -/
def action (parents : List String) (leaf : String) (pattern : Pattern) (shape : Shape) : Rule :=
  { parents, leaf, lineClass := .action, pattern, shape }

/-- An action that is its keyword alone. -/
def bareAction (leaf keyword : String) : Rule :=
  action [] leaf (.phrase [[keyword]] []) (.value .on)

/-- The five weights of an EIGRP metric, any of which may be missing. -/
def eigrpWeights : List String :=
  ["bandwidth", "delay", "reliability", "effective_bandwith", "max_transmission"]

/-- An optional number. -/
def number (field : String) : Operand :=
  .single .optional field [.number]

/-- Fields that are texts. -/
def texts (keys : List String) : Shape :=
  .map (keys.map fun key => ⟨key, .text⟩)

/-- The rules for plain actions. -/
def actions : List Rule :=
  [ action ["add"] "eigrp_metric" (.phrase [["add"], ["eigrp-metric"]] (eigrpWeights.map number))
      (texts eigrpWeights),
    action ["add"] "rip_metric" (.phrase [["add"], ["rip-metric"]] [number "rip_metric"])
      (.value .text),
    action [] "apply" (.call "apply" "route_policy" "route_policy_input")
      (.item [⟨"route_policy", .text⟩, ⟨"route_policy_input", .text⟩]),
    bareAction "drop" "drop",
    bareAction "pass" "pass",
    action [] "prepend"
      (.phrase [["prepend"], ["as-path"]]
        [{ presence := .required
           choices := [("most_recent", .oneOf ["most-recent"]), ("own_as", .oneOf ["own-as"]),
             ("as_path", .number)] },
          number "number_of_times"])
      (.map [⟨"as_path", .text⟩, ⟨"most_recent", .flag⟩, ⟨"own_as", .flag⟩,
        ⟨"number_of_times", .text⟩]),
    bareAction "suppress_route" "suppress-route",
    bareAction "unsuppress_route" "unsuppress-route",
    action [] "remove"
      (.phrase [["remove"], ["as-path"], ["private-as"]] [.token "entire_aspath" "entire-aspath"])
      (.map [⟨"set", .on⟩, ⟨"entire_aspath", .flag⟩]) ]

/-! ## Settings -/

/-- A `set` action. -/
def setting (leaf : String) (words : List (List String)) (operands : List Operand)
    (shape : Shape) : Rule :=
  { parents := ["set"]
    leaf
    lineClass := .setting
    pattern := .phrase (["set"] :: words) operands
    shape }

/-- A `set` action with one required operand, kept as the attribute's value. -/
def oneValue (leaf : String) (words : List String) (form : Form) : Rule :=
  setting leaf (words.map fun w => [w]) [.single .required leaf [form]] (.value .text)

/-- A `set` action with one operand that may be missing. -/
def oneOptional (leaf keyword : String) (form : Form) : Rule :=
  setting leaf [[keyword]] [.single .optional leaf [form]] (.value .text)

/-- A `set` action without operands. -/
def bareSetting (leaf : String) (words : List (List String)) : Rule :=
  setting leaf words [] (.value .on)

/-- A `set` action whose operands are optional fixed words, in a fixed order; each is given as the
field that it raises and the word. -/
def flagSetting (leaf keyword : String) (options : List (String × String)) : Rule :=
  setting leaf [[keyword]] (options.map fun o => .token o.1 o.2)
    (.map (options.map fun o => ⟨o.1, .flag⟩))

/-- The options of a multicast core tree in one direction. -/
def treeOptions : List (String × String) :=
  [("ingress_replication", "ingress-replication"), ("mldp", "mldp"), ("p2mp_te", "p2mp-te"),
    ("sr_p2mp", "sr-p2mp")]

/-- The rules for `set` actions. -/
def settings : List Rule :=
  [ oneOptional "administrative_distance" "administrative-distance" .number,
    setting "aigp_metric" [["aigp-metric"]]
      [.token "icrement" "+", .token "decrement" "-", number "metric_number",
        .token "igp_cost" "igp-cost"]
      (.map [⟨"icrement", .flag⟩, ⟨"decrement", .flag⟩, ⟨"metric_number", .text⟩,
        ⟨"igp_cost", .flag⟩]),
    oneOptional "attribute_set" "attribute-set" .word,
    flagSetting "c_multicast_routing" "c-multicast-routing" [("bgp", "bgp"), ("pim", "pim")],
    setting "community" [["community"]]
      [.single .reluctant "community_name" [.group, .plain], .token "additive" "additive"]
      (.map [⟨"community_name", .text⟩, ⟨"additive", .flag⟩]),
    flagSetting "core_tree" "core-tree"
      [("ingress_replication", "ingress-replication"),
        ("ingress_replication_default", "ingress-replication-default"),
        ("ingress_replication_partitioned", "ingress-replication-partitioned"), ("mldp", "mldp"),
        ("mldp_default", "mldp-default"), ("mldp_inband", "mldp-inband"),
        ("mldp_partitioned_mp2mp", "mldp-partitioned-mp2mp"),
        ("mldp_partitioned_p2mp", "mldp-partitioned-p2mp"), ("p2mp_te", "p2mp-te"),
        ("p2mp_te_default", "p2mp-te-default"), ("p2mp_te_partitioned", "p2mp-te-partitioned"),
        ("pim_default", "pim-default"), ("sr_p2mp", "sr-p2mp")],
    setting "dampening" [["dampening"]]
      (["halflife", "suppress", "reuse", "max_suppress"].map number)
      (texts ["halflife", "max_suppress", "reuse", "suppress"]),
    flagSetting "downstream_core_tree" "downstream-core-tree" treeOptions,
    setting "eigrp_metric" [["eigrp-metric"]] (eigrpWeights.map number) (texts eigrpWeights),
    bareSetting "fallback_vrf_lookup" [["fallback-vrf-lookup"]],
    oneValue "flow_tag" ["flow-tag"] .number,
    oneValue "forward_class" ["forward-class"] .number,
    oneValue "ip_precedence" ["ip-precedence"] .number,
    oneValue "isis_metric" ["isis-metric"] .number,
    oneValue "label" ["label"] .number,
    oneValue "label_index" ["label-index"] .number,
    flagSetting "label_mode" "label-mode"
      [("per_ce", "per-ce"), ("per_prefix", "per-prefix"), ("per_vrf", "per-vrf")],
    oneValue "large_community" ["large-community"] .rest,
    flagSetting "level" "level"
      [("level_1", "level-1"), ("level_1_2", "level-1-2"), ("level_2", "level-2")],
    bareSetting "load_balance" [["load-balance"], ["ecmp-consistent"]],
    oneValue "lsm_root" ["lsm-root"] .word,
    flagSetting "metric_type" "metric-type"
      [("external", "external"), ("internal", "internal"),
        ("rib_metric_as_external", "rib-metric-as-external"),
        ("rib_metric_as_internal", "rib-metric-as-internal"), ("type_1", "type-1"),
        ("type_2", "type-2")],
    oneValue "mpls" ["mpls", "traffic-eng", "attributeset"] .word,
    setting "next_hop" [["next-hop"]] [.single .required "address" [.word]] (texts ["address"]),
    flagSetting "origin" "origin" [("egp", "egp"), ("igp", "igp"), ("rincomplete", "incomplete")],
    oneValue "ospf_metric" ["ospf-metric"] .number,
    bareSetting "path_color" [["path-color"], ["external-reach"]],
    oneValue "qos_group" ["qos-group"] .number,
    oneValue "rib_metric" ["rib-metric"] .number,
    oneValue "rip_metric" ["rip-metric"] .number,
    oneValue "rip_tag" ["rip-tag"] .number,
    oneValue "rt_set" ["rt-set"] .number,
    bareSetting "s_pmsi" [["s-pmsi"], ["star-g", "start-g"]],
    flagSetting "spf_priority" "spf-priority"
      [("critical", "critical"), ("high", "high"), ("medium", "medium")],
    oneValue "static_p2mp_te" ["static-p2mp-te"] .word,
    oneValue "tag" ["tag"] .number,
    setting "traffic_index" [["traffic-index"]] [number "index_number", .token "ignore" "ignore"]
      (.map [⟨"index_number", .text⟩, ⟨"ignore", .flag⟩]),
    flagSetting "upstream_core_tree" "upstream-core-tree" treeOptions,
    oneValue "vpn_distinguisher" ["vpn-distinguisher"] .number,
    oneValue "weight" ["weight"] .number ]

example : actions.length = 9 := by decide
example : settings.length = 40 := by decide

end RoutePolicy.Catalog
