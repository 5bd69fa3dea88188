/-!
The names of pictures, as console texts write them between colons. In a table each line holds names
and behind them what they name: a picture, or the two letters of a region that stand for its flag.
-/

namespace Typestate.Report

/-- Names of pictures. -/
def pictureTable : String := "keycap_number_sign #⃣
keycap_# #️⃣
keycap_asterisk *⃣
keycap_* *️⃣
keycap_digit_zero 0⃣
keycap_0 zero 0️⃣
keycap_digit_one 1⃣
keycap_1 one 1️⃣
keycap_digit_two 2⃣
keycap_2 two 2️⃣
keycap_digit_three 3⃣
keycap_3 three 3️⃣
keycap_digit_four 4⃣
four keycap_4 4️⃣
keycap_digit_five 5⃣
five keycap_5 5️⃣
keycap_digit_six 6⃣
keycap_6 six 6️⃣
keycap_digit_seven 7⃣
keycap_7 seven 7️⃣
keycap_digit_eight 8⃣
eight keycap_8 8️⃣
keycap_digit_nine 9⃣
keycap_9 nine 9️⃣
copyright ©
registered ®
bangbang double_exclamation_mark ‼
exclamation_question_mark interrobang ⁉
tm trade_mark ™
information information_source ℹ
left-right_arrow left_right_arrow ↔
arrow_up_down up-down_arrow ↕
arrow_upper_left up-left_arrow ↖
arrow_upper_right up-right_arrow ↗
arrow_lower_right down-right_arrow ↘
arrow_lower_left down-left_arrow ↙
leftwards_arrow_with_hook right_arrow_curving_left ↩
arrow_right_hook left_arrow_curving_right ↪
watch ⌚
hourglass hourglass_done ⌛
keyboard ⌨
helm_symbol ⎈
eject_button eject_symbol ⏏
fast-forward_button fast_forward ⏩
fast_reverse_button rewind ⏪
arrow_double_up fast_up_button ⏫
arrow_double_down fast_down_button ⏬
black_right__pointing_double_triangle_with_vertical_bar next_track_button ⏭
black_left__pointing_double_triangle_with_vertical_bar last_track_button ⏮
black_right__pointing_triangle_with_double_vertical_bar play_or_pause_button ⏯
alarm_clock ⏰
stopwatch ⏱
timer_clock ⏲
hourglass_flowing_sand hourglass_not_done ⏳
double_vertical_bar pause_button ⏸
black_square_for_stop stop_button ⏹
black_circle_for_record record_button ⏺
circled_m m Ⓜ
black_small_square ▪
white_small_square ▫
arrow_forward play_button ▶
arrow_backward reverse_button ◀
white_medium_square ◻
black_medium_square ◼
white_medium-small_square white_medium_small_square ◽
black_medium-small_square black_medium_small_square ◾
sun sunny ☀
cloud ☁
umbrella ☂
snowman ☃
comet ☄
phone telephone ☎
ballot_box_with_check ☑
umbrella_with_rain_drops ☔
coffee hot_beverage ☕
shamrock ☘
index_pointing_up point_up ☝
skull_and_crossbones ☠
radioactive radioactive_sign ☢
biohazard biohazard_sign ☣
orthodox_cross ☦
star_and_crescent ☪
peace_symbol ☮
yin_yang ☯
wheel_of_dharma ☸
frowning_face white_frowning_face ☹
relaxed smiling_face ☺
female_sign ♀
male_sign ♂
aries ♈
taurus ♉
gemini ♊
cancer ♋
leo ♌
virgo ♍
libra ♎
scorpio scorpius ♏
sagittarius ♐
capricorn ♑
aquarius ♒
pisces ♓
chess_pawn ♟
spade_suit spades ♠
club_suit clubs ♣
heart_suit hearts ♥
diamond_suit diamonds ♦
hot_springs hotsprings ♨
recycle recycling_symbol ♻
infinity ♾
wheelchair wheelchair_symbol ♿
hammer_and_pick ⚒
anchor ⚓
crossed_swords ⚔
medical_symbol ⚕
balance_scale scales ⚖
alembic ⚗
gear ⚙
atom_symbol ⚛
fleur-de-lis fleur__de__lis ⚜
warning ⚠
high_voltage zap ⚡
white_circle ⚪
black_circle ⚫
coffin ⚰
funeral_urn ⚱
soccer soccer_ball ⚽
baseball ⚾
snowman_without_snow ⛄
partly_sunny sun_behind_cloud ⛅
cloud_with_lightning_and_rain thunder_cloud_and_rain ⛈
ophiuchus ⛎
pick ⛏
helmet_with_white_cross rescue_worker’s_helmet ⛑
chains ⛓
no_entry ⛔
shinto_shrine ⛩
church ⛪
mountain ⛰
umbrella_on_ground ⛱
fountain ⛲
flag_in_hole golf ⛳
ferry ⛴
boat sailboat ⛵
skier ⛷
ice_skate ⛸
person_bouncing_ball person_with_ball ⛹
woman_bouncing_ball ⛹️‍♀️
man_bouncing_ball ⛹️‍♂️
tent ⛺
fuel_pump fuelpump ⛽
scissors ✂
white_check_mark white_heavy_check_mark ✅
airplane ✈
email envelope ✉
fist raised_fist ✊
hand raised_hand ✋
v victory_hand ✌
writing_hand ✍
pencil2 ✏
black_nib ✒
heavy_check_mark ✔
heavy_multiplication_x ✖
latin_cross ✝
star_of_david ✡
sparkles ✨
eight-spoked_asterisk eight_spoked_asterisk ✳
eight-pointed_star eight_pointed_black_star ✴
snowflake ❄
sparkle ❇
cross_mark x ❌
cross_mark_button negative_squared_cross_mark ❎
question question_mark ❓
grey_question white_question_mark ❔
grey_exclamation white_exclamation_mark ❕
exclamation exclamation_mark heavy_exclamation_mark ❗
heavy_heart_exclamation heavy_heart_exclamation_mark_ornament ❣
heart red_heart ❤
heavy_plus_sign ➕
heavy_minus_sign ➖
heavy_division_sign ➗
arrow_right right_arrow ➡
curly_loop ➰
double_curly_loop loop ➿
arrow_heading_up right_arrow_curving_up ⤴
arrow_heading_down right_arrow_curving_down ⤵
arrow_left left_arrow ⬅
arrow_up up_arrow ⬆
arrow_down down_arrow ⬇
black_large_square ⬛
white_large_square ⬜
star white_medium_star ⭐
heavy_large_circle o ⭕
wavy_dash 〰
part_alternation_mark 〽
congratulations japanese_congratulations_button ㊗
japanese_secret_button secret ㊙
mahjong mahjong_red_dragon 🀄
black_joker joker 🃏
a a_button_(blood_type) 🅰
b b_button_(blood_type) 🅱
o2 o_button_(blood_type) 🅾
p_button parking 🅿
ab ab_button_(blood_type) 🆎
cl cl_button 🆑
cool cool_button 🆒
free free_button 🆓
id id_button 🆔
new new_button 🆕
ng ng_button 🆖
ok ok_button 🆗
sos sos_button 🆘
up up!_button 🆙
vs vs_button 🆚
regional_indicator_a regional_indicator_symbol_letter_a 🇦
regional_indicator_b regional_indicator_symbol_letter_b 🇧
regional_indicator_c regional_indicator_symbol_letter_c 🇨
regional_indicator_d regional_indicator_symbol_letter_d 🇩
regional_indicator_e regional_indicator_symbol_letter_e 🇪
regional_indicator_f regional_indicator_symbol_letter_f 🇫
regional_indicator_g regional_indicator_symbol_letter_g 🇬
regional_indicator_h regional_indicator_symbol_letter_h 🇭
regional_indicator_i regional_indicator_symbol_letter_i 🇮
regional_indicator_j regional_indicator_symbol_letter_j 🇯
regional_indicator_k regional_indicator_symbol_letter_k 🇰
regional_indicator_l regional_indicator_symbol_letter_l 🇱
regional_indicator_m regional_indicator_symbol_letter_m 🇲
regional_indicator_n regional_indicator_symbol_letter_n 🇳
regional_indicator_o regional_indicator_symbol_letter_o 🇴
regional_indicator_p regional_indicator_symbol_letter_p 🇵
regional_indicator_q regional_indicator_symbol_letter_q 🇶
regional_indicator_r regional_indicator_symbol_letter_r 🇷
regional_indicator_s regional_indicator_symbol_letter_s 🇸
regional_indicator_symbol_letter_t regional_indicator_t 🇹
regional_indicator_symbol_letter_u regional_indicator_u 🇺
regional_indicator_symbol_letter_v regional_indicator_v 🇻
regional_indicator_symbol_letter_w regional_indicator_w 🇼
regional_indicator_symbol_letter_x regional_indicator_x 🇽
regional_indicator_symbol_letter_y regional_indicator_y 🇾
regional_indicator_symbol_letter_z regional_indicator_z 🇿
japanese_here_button koko 🈁
japanese_service_charge_button sa 🈂
japanese_free_of_charge_button u7121 🈚
japanese_reserved_button u6307 🈯
japanese_prohibited_button u7981 🈲
japanese_vacancy_button u7a7a 🈳
japanese_passing_grade_button u5408 🈴
japanese_no_vacancy_button u6e80 🈵
japanese_not_free_of_charge_button u6709 🈶
japanese_monthly_amount_button u6708 🈷
japanese_application_button u7533 🈸
japanese_discount_button u5272 🈹
japanese_open_for_business_button u55b6 🈺
ideograph_advantage japanese_bargain_button 🉐
accept japanese_acceptable_button 🉑
cyclone 🌀
foggy 🌁
closed_umbrella 🌂
night_with_stars 🌃
sunrise_over_mountains 🌄
sunrise 🌅
city_sunset cityscape_at_dusk 🌆
city_sunrise sunset 🌇
rainbow 🌈
bridge_at_night 🌉
ocean water_wave 🌊
volcano 🌋
milky_way 🌌
earth_africa globe_showing_europe-africa 🌍
earth_americas globe_showing_americas 🌎
earth_asia globe_showing_asia-australia 🌏
globe_with_meridians 🌐
new_moon 🌑
waxing_crescent_moon 🌒
first_quarter_moon 🌓
moon waxing_gibbous_moon 🌔
full_moon 🌕
waning_gibbous_moon 🌖
last_quarter_moon 🌗
waning_crescent_moon 🌘
crescent_moon 🌙
new_moon_face new_moon_with_face 🌚
first_quarter_moon_face first_quarter_moon_with_face 🌛
last_quarter_moon_face last_quarter_moon_with_face 🌜
full_moon_face full_moon_with_face 🌝
sun_with_face 🌞
glowing_star star2 🌟
shooting_star stars 🌠
thermometer 🌡
sun_behind_small_cloud white_sun_with_small_cloud 🌤
sun_behind_large_cloud white_sun_behind_cloud 🌥
sun_behind_rain_cloud white_sun_behind_cloud_with_rain 🌦
cloud_with_rain 🌧
cloud_with_snow 🌨
cloud_with_lightning 🌩
cloud_with_tornado tornado 🌪
fog 🌫
wind_blowing_face wind_face 🌬
hot_dog 🌭
taco 🌮
burrito 🌯
chestnut 🌰
seedling 🌱
evergreen_tree 🌲
deciduous_tree 🌳
palm_tree 🌴
cactus 🌵
hot_pepper 🌶
tulip 🌷
cherry_blossom 🌸
rose 🌹
hibiscus 🌺
sunflower 🌻
blossom 🌼
corn ear_of_corn 🌽
ear_of_rice sheaf_of_rice 🌾
herb 🌿
four_leaf_clover 🍀
maple_leaf 🍁
fallen_leaf 🍂
leaf_fluttering_in_wind leaves 🍃
mushroom 🍄
tomato 🍅
eggplant 🍆
grapes 🍇
melon 🍈
watermelon 🍉
tangerine 🍊
lemon 🍋
banana 🍌
pineapple 🍍
apple red_apple 🍎
green_apple 🍏
pear 🍐
peach 🍑
cherries 🍒
strawberry 🍓
hamburger 🍔
pizza 🍕
meat_on_bone 🍖
poultry_leg 🍗
rice_cracker 🍘
rice_ball 🍙
cooked_rice rice 🍚
curry curry_rice 🍛
ramen steaming_bowl 🍜
spaghetti 🍝
bread 🍞
french_fries fries 🍟
roasted_sweet_potato sweet_potato 🍠
dango 🍡
oden 🍢
sushi 🍣
fried_shrimp 🍤
fish_cake fish_cake_with_swirl 🍥
icecream soft_ice_cream 🍦
shaved_ice 🍧
ice_cream 🍨
doughnut 🍩
cookie 🍪
chocolate_bar 🍫
candy 🍬
lollipop 🍭
custard 🍮
honey_pot 🍯
cake shortcake 🍰
bento bento_box 🍱
pot_of_food stew 🍲
cooking egg 🍳
fork_and_knife 🍴
tea teacup_without_handle 🍵
sake 🍶
wine_glass 🍷
cocktail cocktail_glass 🍸
tropical_drink 🍹
beer beer_mug 🍺
beers clinking_beer_mugs 🍻
baby_bottle 🍼
fork_and_knife_with_plate 🍽
bottle_with_popping_cork 🍾
popcorn 🍿
ribbon 🎀
gift wrapped_gift 🎁
birthday birthday_cake 🎂
jack-o-lantern jack_o_lantern 🎃
christmas_tree 🎄
santa santa_claus 🎅
fireworks 🎆
sparkler 🎇
balloon 🎈
party_popper tada 🎉
confetti_ball 🎊
tanabata_tree 🎋
crossed_flags 🎌
bamboo pine_decoration 🎍
dolls japanese_dolls 🎎
carp_streamer flags 🎏
wind_chime 🎐
moon_viewing_ceremony rice_scene 🎑
school_backpack school_satchel 🎒
graduation_cap mortar_board 🎓
military_medal 🎖
reminder_ribbon 🎗
studio_microphone 🎙
level_slider 🎚
control_knobs 🎛
film_frames 🎞
admission_tickets 🎟
carousel_horse 🎠
ferris_wheel 🎡
roller_coaster 🎢
fishing_pole fishing_pole_and_fish 🎣
microphone 🎤
movie_camera 🎥
cinema 🎦
headphone headphones 🎧
art artist_palette 🎨
top_hat tophat 🎩
circus_tent 🎪
ticket 🎫
clapper clapper_board 🎬
performing_arts 🎭
video_game 🎮
dart direct_hit 🎯
slot_machine 🎰
8ball pool_8_ball 🎱
game_die 🎲
bowling 🎳
flower_playing_cards 🎴
musical_note 🎵
musical_notes notes 🎶
saxophone 🎷
guitar 🎸
musical_keyboard 🎹
trumpet 🎺
violin 🎻
musical_score 🎼
running_shirt running_shirt_with_sash 🎽
tennis 🎾
ski skis 🎿
basketball 🏀
checkered_flag chequered_flag 🏁
snowboarder 🏂
person_running runner running 🏃
woman_running 🏃‍♀️
man_running 🏃‍♂️
person_surfing surfer 🏄
woman_surfing 🏄‍♀️
man_surfing 🏄‍♂️
sports_medal 🏅
trophy 🏆
horse_racing 🏇
american_football football 🏈
rugby_football 🏉
person_swimming swimmer 🏊
woman_swimming 🏊‍♀️
man_swimming 🏊‍♂️
person_lifting_weights weight_lifter 🏋
woman_lifting_weights 🏋️‍♀️
man_lifting_weights 🏋️‍♂️
golfer person_golfing 🏌
woman_golfing 🏌️‍♀️
man_golfing 🏌️‍♂️
motorcycle racing_motorcycle 🏍
racing_car 🏎
cricket_bat_and_ball cricket_game 🏏
volleyball 🏐
field_hockey field_hockey_stick_and_ball 🏑
ice_hockey ice_hockey_stick_and_puck 🏒
ping_pong table_tennis_paddle_and_ball 🏓
snow-capped_mountain snow_capped_mountain 🏔
camping 🏕
beach_with_umbrella 🏖
building_construction 🏗
house_buildings houses 🏘
cityscape 🏙
derelict_house derelict_house_building 🏚
classical_building 🏛
desert 🏜
desert_island 🏝
national_park 🏞
stadium 🏟
house 🏠
house_with_garden 🏡
office office_building 🏢
japanese_post_office post_office 🏣
european_post_office 🏤
hospital 🏥
bank 🏦
atm atm_sign 🏧
hotel 🏨
love_hotel 🏩
convenience_store 🏪
school 🏫
department_store 🏬
factory 🏭
izakaya_lantern lantern red_paper_lantern 🏮
japanese_castle 🏯
castle european_castle 🏰
waving_white_flag white_flag 🏳
rainbow_flag 🏳️‍🌈
black_flag waving_black_flag 🏴
pirate_flag 🏴‍☠️
england 🏴󠁧󠁢󠁥󠁮󠁧󠁿
scotland 🏴󠁧󠁢󠁳󠁣󠁴󠁿
wales 🏴󠁧󠁢󠁷󠁬󠁳󠁿
rosette 🏵
label 🏷
badminton badminton_racquet_and_shuttlecock 🏸
bow_and_arrow 🏹
amphora 🏺
emoji_modifier_fitzpatrick_type__1__2 light_skin_tone 🏻
emoji_modifier_fitzpatrick_type__3 medium_light_skin_tone 🏼
emoji_modifier_fitzpatrick_type__4 medium_skin_tone 🏽
emoji_modifier_fitzpatrick_type__5 medium_dark_skin_tone 🏾
dark_skin_tone emoji_modifier_fitzpatrick_type__6 🏿
rat 🐀
mouse2 🐁
ox 🐂
water_buffalo 🐃
cow2 🐄
tiger2 🐅
leopard 🐆
rabbit2 🐇
cat2 🐈
dragon 🐉
crocodile 🐊
whale2 🐋
snail 🐌
snake 🐍
racehorse 🐎
ram 🐏
goat 🐐
ewe sheep 🐑
monkey 🐒
rooster 🐓
chicken 🐔
dog2 🐕
service_dog 🐕‍🦺
pig2 🐖
boar 🐗
elephant 🐘
octopus 🐙
shell spiral_shell 🐚
bug 🐛
ant 🐜
bee honeybee 🐝
beetle lady_beetle 🐞
fish 🐟
tropical_fish 🐠
blowfish 🐡
turtle 🐢
hatching_chick 🐣
baby_chick 🐤
front-facing_baby_chick hatched_chick 🐥
bird 🐦
penguin 🐧
koala 🐨
poodle 🐩
dromedary_camel 🐪
camel two-hump_camel 🐫
dolphin flipper 🐬
mouse mouse_face 🐭
cow cow_face 🐮
tiger tiger_face 🐯
rabbit rabbit_face 🐰
cat cat_face 🐱
dragon_face 🐲
spouting_whale whale 🐳
horse horse_face 🐴
monkey_face 🐵
dog dog_face 🐶
pig pig_face 🐷
frog frog_face 🐸
hamster hamster_face 🐹
wolf wolf_face 🐺
bear bear_face 🐻
panda_face 🐼
pig_nose 🐽
feet paw_prints 🐾
chipmunk 🐿
eyes 👀
eye 👁
eye_in_speech_bubble 👁️‍🗨️
ear 👂
nose 👃
lips mouth 👄
tongue 👅
backhand_index_pointing_up point_up_2 👆
backhand_index_pointing_down point_down 👇
backhand_index_pointing_left point_left 👈
backhand_index_pointing_right point_right 👉
facepunch oncoming_fist punch 👊
wave waving_hand 👋
ok_hand 👌
+1 thumbs_up thumbsup 👍
-1 __1 thumbs_down thumbsdown 👎
clap clapping_hands 👏
open_hands 👐
crown 👑
womans_hat woman’s_hat 👒
eyeglasses glasses 👓
necktie 👔
shirt t-shirt tshirt 👕
jeans 👖
dress 👗
kimono 👘
bikini 👙
womans_clothes woman’s_clothes 👚
purse 👛
handbag 👜
clutch_bag pouch 👝
mans_shoe man’s_shoe shoe 👞
athletic_shoe running_shoe 👟
high-heeled_shoe high_heel 👠
sandal woman’s_sandal 👡
boot woman’s_boot 👢
footprints 👣
bust_in_silhouette 👤
busts_in_silhouette 👥
boy 👦
girl 👧
man 👨
man_health_worker 👨‍⚕️
man_judge 👨‍⚖️
man_pilot 👨‍✈️
couple_with_heart_man_man 👨‍❤️‍👨
kiss_man_man 👨‍❤️‍💋‍👨
man_farmer 👨‍🌾
man_cook 👨‍🍳
man_student 👨‍🎓
man_singer 👨‍🎤
man_artist 👨‍🎨
man_teacher 👨‍🏫
man_factory_worker 👨‍🏭
family_man_boy 👨‍👦
family_man_boy_boy 👨‍👦‍👦
family_man_girl 👨‍👧
family_man_girl_boy 👨‍👧‍👦
family_man_girl_girl 👨‍👧‍👧
family_man_man_boy 👨‍👨‍👦
family_man_man_boy_boy 👨‍👨‍👦‍👦
family_man_man_girl 👨‍👨‍👧
family_man_man_girl_boy 👨‍👨‍👧‍👦
family_man_man_girl_girl 👨‍👨‍👧‍👧
family_man_woman_boy 👨‍👩‍👦
family_man_woman_boy_boy 👨‍👩‍👦‍👦
family_man_woman_girl 👨‍👩‍👧
family_man_woman_girl_boy 👨‍👩‍👧‍👦
family_man_woman_girl_girl 👨‍👩‍👧‍👧
man_technologist 👨‍💻
man_office_worker 👨‍💼
man_mechanic 👨‍🔧
man_scientist 👨‍🔬
man_astronaut 👨‍🚀
man_firefighter 👨‍🚒
man_with_probing_cane 👨‍🦯
red-haired_man 👨‍🦰
curly-haired_man 👨‍🦱
bald_man 👨‍🦲
white-haired_man 👨‍🦳
man_in_motorized_wheelchair 👨‍🦼
man_in_manual_wheelchair 👨‍🦽
woman 👩
woman_health_worker 👩‍⚕️
woman_judge 👩‍⚖️
woman_pilot 👩‍✈️
couple_with_heart_woman_man 👩‍❤️‍👨
couple_with_heart_woman_woman 👩‍❤️‍👩
kiss_woman_man 👩‍❤️‍💋‍👨
kiss_woman_woman 👩‍❤️‍💋‍👩
woman_farmer 👩‍🌾
woman_cook 👩‍🍳
woman_student 👩‍🎓
woman_singer 👩‍🎤
woman_artist 👩‍🎨
woman_teacher 👩‍🏫
woman_factory_worker 👩‍🏭
family_woman_boy 👩‍👦
family_woman_boy_boy 👩‍👦‍👦
family_woman_girl 👩‍👧
family_woman_girl_boy 👩‍👧‍👦
family_woman_girl_girl 👩‍👧‍👧
family_woman_woman_boy 👩‍👩‍👦
family_woman_woman_boy_boy 👩‍👩‍👦‍👦
family_woman_woman_girl 👩‍👩‍👧
family_woman_woman_girl_boy 👩‍👩‍👧‍👦
family_woman_woman_girl_girl 👩‍👩‍👧‍👧
woman_technologist 👩‍💻
woman_office_worker 👩‍💼
woman_mechanic 👩‍🔧
woman_scientist 👩‍🔬
woman_astronaut 👩‍🚀
woman_firefighter 👩‍🚒
woman_with_probing_cane 👩‍🦯
red-haired_woman 👩‍🦰
curly-haired_woman 👩‍🦱
bald_woman 👩‍🦲
white-haired_woman 👩‍🦳
woman_in_motorized_wheelchair 👩‍🦼
woman_in_manual_wheelchair 👩‍🦽
family 👪
couple man_and_woman_holding_hands 👫
two_men_holding_hands 👬
two_women_holding_hands 👭
cop police_officer 👮
woman_police_officer 👮‍♀️
man_police_officer 👮‍♂️
dancers people_with_bunny_ears 👯
women_with_bunny_ears 👯‍♀️
men_with_bunny_ears 👯‍♂️
bride_with_veil 👰
blond-haired_person person_with_blond_hair 👱
blond-haired_woman 👱‍♀️
blond-haired_man 👱‍♂️
man_with_chinese_cap man_with_gua_pi_mao 👲
man_with_turban person_wearing_turban 👳
woman_wearing_turban 👳‍♀️
man_wearing_turban 👳‍♂️
old_man older_man 👴
old_woman older_woman 👵
baby 👶
construction_worker 👷
woman_construction_worker 👷‍♀️
man_construction_worker 👷‍♂️
princess 👸
japanese_ogre ogre 👹
goblin japanese_goblin 👺
ghost 👻
angel baby_angel 👼
alien 👽
alien_monster space_invader 👾
angry_face_with_horns imp 👿
skull 💀
information_desk_person person_tipping_hand 💁
woman_tipping_hand 💁‍♀️
man_tipping_hand 💁‍♂️
guard guardsman 💂
woman_guard 💂‍♀️
man_guard 💂‍♂️
dancer woman_dancing 💃
lipstick 💄
nail_care nail_polish 💅
massage person_getting_massage 💆
woman_getting_massage 💆‍♀️
man_getting_massage 💆‍♂️
haircut person_getting_haircut 💇
woman_getting_haircut 💇‍♀️
man_getting_haircut 💇‍♂️
barber barber_pole 💈
syringe 💉
pill 💊
kiss kiss_mark 💋
love_letter 💌
ring 💍
gem gem_stone 💎
couplekiss 💏
bouquet 💐
couple_with_heart 💑
wedding 💒
beating_heart heartbeat 💓
broken_heart 💔
two_hearts 💕
sparkling_heart 💖
growing_heart heartpulse 💗
cupid heart_with_arrow 💘
blue_heart 💙
green_heart 💚
yellow_heart 💛
purple_heart 💜
gift_heart heart_with_ribbon 💝
revolving_hearts 💞
heart_decoration 💟
diamond_shape_with_a_dot_inside diamond_with_a_dot 💠
bulb light_bulb 💡
anger anger_symbol 💢
bomb 💣
zzz 💤
boom collision 💥
sweat_droplets sweat_drops 💦
droplet 💧
dash dashing_away 💨
hankey pile_of_poo poop shit 💩
flexed_biceps muscle 💪
dizzy 💫
speech_balloon 💬
thought_balloon 💭
white_flower 💮
100 hundred_points 💯
money_bag moneybag 💰
currency_exchange 💱
heavy_dollar_sign 💲
credit_card 💳
yen yen_banknote 💴
dollar dollar_banknote 💵
euro euro_banknote 💶
pound pound_banknote 💷
money_with_wings 💸
chart chart_increasing_with_yen 💹
seat 💺
computer laptop_computer 💻
briefcase 💼
computer_disk minidisc 💽
floppy_disk 💾
cd optical_disk 💿
dvd 📀
file_folder 📁
open_file_folder 📂
page_with_curl 📃
page_facing_up 📄
date 📅
calendar tear-off_calendar 📆
card_index 📇
chart_increasing chart_with_upwards_trend 📈
chart_decreasing chart_with_downwards_trend 📉
bar_chart 📊
clipboard 📋
pushpin 📌
round_pushpin 📍
paperclip 📎
straight_ruler 📏
triangular_ruler 📐
bookmark_tabs 📑
ledger 📒
notebook 📓
notebook_with_decorative_cover 📔
closed_book 📕
book open_book 📖
green_book 📗
blue_book 📘
orange_book 📙
books 📚
name_badge 📛
scroll 📜
memo pencil 📝
telephone_receiver 📞
pager 📟
fax fax_machine 📠
satellite satellite_antenna 📡
loudspeaker 📢
mega megaphone 📣
outbox_tray 📤
inbox_tray 📥
package 📦
e-mail e__mail 📧
incoming_envelope 📨
envelope_with_arrow 📩
closed_mailbox_with_lowered_flag mailbox_closed 📪
closed_mailbox_with_raised_flag mailbox 📫
mailbox_with_mail open_mailbox_with_raised_flag 📬
mailbox_with_no_mail open_mailbox_with_lowered_flag 📭
postbox 📮
postal_horn 📯
newspaper 📰
iphone mobile_phone 📱
calling mobile_phone_with_arrow 📲
vibration_mode 📳
mobile_phone_off 📴
no_mobile_phones 📵
antenna_bars signal_strength 📶
camera 📷
camera_with_flash 📸
video_camera 📹
television tv 📺
radio 📻
vhs videocassette 📼
film_projector 📽
prayer_beads 📿
shuffle_tracks_button twisted_rightwards_arrows 🔀
repeat repeat_button 🔁
repeat_one repeat_single_button 🔂
arrows_clockwise clockwise_vertical_arrows 🔃
arrows_counterclockwise counterclockwise_arrows_button 🔄
dim_button low_brightness 🔅
bright_button high_brightness 🔆
mute muted_speaker 🔇
speaker speaker_low_volume 🔈
sound speaker_medium_volume 🔉
loud_sound speaker_high_volume 🔊
battery 🔋
electric_plug 🔌
mag magnifying_glass_tilted_left 🔍
mag_right magnifying_glass_tilted_right 🔎
lock_with_ink_pen locked_with_pen 🔏
closed_lock_with_key locked_with_key 🔐
key 🔑
lock locked 🔒
unlock unlocked 🔓
bell 🔔
bell_with_slash no_bell 🔕
bookmark 🔖
link 🔗
radio_button 🔘
back back_arrow 🔙
end end_arrow 🔚
on on!_arrow 🔛
soon soon_arrow 🔜
top top_arrow 🔝
no_one_under_eighteen underage 🔞
keycap_10 ten 🔟
capital_abcd input_latin_uppercase 🔠
abcd input_latin_lowercase 🔡
1234 input_numbers 🔢
input_symbols symbols 🔣
abc input_latin_letters 🔤
fire 🔥
flashlight 🔦
wrench 🔧
hammer 🔨
nut_and_bolt 🔩
hocho kitchen_knife knife 🔪
gun pistol 🔫
microscope 🔬
telescope 🔭
crystal_ball 🔮
dotted_six-pointed_star six_pointed_star 🔯
beginner japanese_symbol_for_beginner 🔰
trident trident_emblem 🔱
black_square_button 🔲
white_square_button 🔳
red_circle 🔴
blue_circle large_blue_circle 🔵
large_orange_diamond 🔶
large_blue_diamond 🔷
small_orange_diamond 🔸
small_blue_diamond 🔹
red_triangle_pointed_up small_red_triangle 🔺
red_triangle_pointed_down small_red_triangle_down 🔻
arrow_up_small upwards_button 🔼
arrow_down_small downwards_button 🔽
om om_symbol 🕉
dove dove_of_peace 🕊
kaaba 🕋
mosque 🕌
synagogue 🕍
menorah menorah_with_nine_branches 🕎
clock1 one_o’clock 🕐
clock2 two_o’clock 🕑
clock3 three_o’clock 🕒
clock4 four_o’clock 🕓
clock5 five_o’clock 🕔
clock6 six_o’clock 🕕
clock7 seven_o’clock 🕖
clock8 eight_o’clock 🕗
clock9 nine_o’clock 🕘
clock10 ten_o’clock 🕙
clock11 eleven_o’clock 🕚
clock12 twelve_o’clock 🕛
clock130 one-thirty 🕜
clock230 two-thirty 🕝
clock330 three-thirty 🕞
clock430 four-thirty 🕟
clock530 five-thirty 🕠
clock630 six-thirty 🕡
clock730 seven-thirty 🕢
clock830 eight-thirty 🕣
clock930 nine-thirty 🕤
clock1030 ten-thirty 🕥
clock1130 eleven-thirty 🕦
clock1230 twelve-thirty 🕧
candle 🕯
mantelpiece_clock 🕰
hole 🕳
man_in_business_suit_levitating man_in_suit_levitating 🕴
detective sleuth_or_spy 🕵
woman_detective 🕵️‍♀️
man_detective 🕵️‍♂️
dark_sunglasses 🕶
spider 🕷
spider_web 🕸
joystick 🕹
man_dancing 🕺
linked_paperclips 🖇
lower_left_ballpoint_pen pen 🖊
fountain_pen lower_left_fountain_pen 🖋
lower_left_paintbrush paintbrush 🖌
crayon lower_left_crayon 🖍
hand_with_fingers_splayed raised_hand_with_fingers_splayed 🖐
middle_finger reversed_hand_with_middle_finger_extended 🖕
raised_hand_with_part_between_middle_and_ring_fingers vulcan_salute 🖖
black_heart 🖤
desktop_computer 🖥
printer 🖨
computer_mouse three_button_mouse 🖱
trackball 🖲
frame_with_picture framed_picture 🖼
card_index_dividers 🗂
card_file_box 🗃
file_cabinet 🗄
wastebasket 🗑
spiral_note_pad spiral_notepad 🗒
spiral_calendar spiral_calendar_pad 🗓
clamp compression 🗜
old_key 🗝
rolled-up_newspaper rolled__up_newspaper 🗞
dagger dagger_knife 🗡
speaking_head speaking_head_in_silhouette 🗣
left_speech_bubble 🗨
right_anger_bubble 🗯
ballot_box_with_ballot 🗳
world_map 🗺
mount_fuji 🗻
tokyo_tower 🗼
statue_of_liberty 🗽
japan map_of_japan 🗾
moai moyai 🗿
grinning grinning_face 😀
beaming_face_with_smiling_eyes grin 😁
face_with_tears_of_joy joy 😂
grinning_face_with_big_eyes smiley 😃
grinning_face_with_smiling_eyes smile 😄
grinning_face_with_sweat sweat_smile 😅
grinning_squinting_face laughing satisfied 😆
innocent smiling_face_with_halo 😇
smiling_face_with_horns smiling_imp 😈
wink winking_face 😉
blush smiling_face_with_smiling_eyes 😊
face_savoring_food yum 😋
relieved relieved_face 😌
heart_eyes smiling_face_with_heart-eyes 😍
smiling_face_with_sunglasses sunglasses 😎
smirk smirking_face 😏
neutral_face 😐
expressionless expressionless_face 😑
unamused unamused_face 😒
downcast_face_with_sweat sweat 😓
pensive pensive_face 😔
confused confused_face 😕
confounded confounded_face 😖
kissing kissing_face 😗
face_blowing_a_kiss kissing_heart 😘
kissing_face_with_smiling_eyes kissing_smiling_eyes 😙
kissing_closed_eyes kissing_face_with_closed_eyes 😚
face_with_tongue stuck_out_tongue 😛
stuck_out_tongue_winking_eye winking_face_with_tongue 😜
squinting_face_with_tongue stuck_out_tongue_closed_eyes 😝
disappointed disappointed_face 😞
worried worried_face 😟
angry angry_face 😠
pouting_face rage 😡
cry crying_face 😢
persevere persevering_face 😣
face_with_steam_from_nose triumph 😤
disappointed_relieved sad_but_relieved_face 😥
frowning frowning_face_with_open_mouth 😦
anguished anguished_face 😧
fearful fearful_face 😨
weary weary_face 😩
sleepy sleepy_face 😪
tired_face 😫
grimacing grimacing_face 😬
loudly_crying_face sob 😭
face_with_open_mouth open_mouth 😮
hushed hushed_face 😯
anxious_face_with_sweat cold_sweat 😰
face_screaming_in_fear scream 😱
astonished astonished_face 😲
flushed flushed_face 😳
sleeping sleeping_face 😴
dizzy_face 😵
face_without_mouth no_mouth 😶
face_with_medical_mask mask 😷
grinning_cat_face_with_smiling_eyes smile_cat 😸
cat_face_with_tears_of_joy joy_cat 😹
grinning_cat_face smiley_cat 😺
heart_eyes_cat smiling_cat_face_with_heart-eyes 😻
cat_face_with_wry_smile smirk_cat 😼
kissing_cat kissing_cat_face 😽
pouting_cat pouting_cat_face 😾
crying_cat_face 😿
scream_cat weary_cat_face 🙀
slightly_frowning_face 🙁
slightly_smiling_face 🙂
upside-down_face upside__down_face 🙃
face_with_rolling_eyes 🙄
no_good person_gesturing_no 🙅
woman_gesturing_no 🙅‍♀️
man_gesturing_no 🙅‍♂️
ok_woman person_gesturing_ok 🙆
woman_gesturing_ok 🙆‍♀️
man_gesturing_ok 🙆‍♂️
bow person_bowing 🙇
woman_bowing 🙇‍♀️
man_bowing 🙇‍♂️
see-no-evil_monkey see_no_evil 🙈
hear-no-evil_monkey hear_no_evil 🙉
speak-no-evil_monkey speak_no_evil 🙊
person_raising_hand raising_hand 🙋
woman_raising_hand 🙋‍♀️
man_raising_hand 🙋‍♂️
raised_hands raising_hands 🙌
person_frowning 🙍
woman_frowning 🙍‍♀️
man_frowning 🙍‍♂️
person_pouting person_with_pouting_face 🙎
woman_pouting 🙎‍♀️
man_pouting 🙎‍♂️
folded_hands pray 🙏
rocket 🚀
helicopter 🚁
locomotive steam_locomotive 🚂
railway_car 🚃
bullettrain_side high-speed_train 🚄
bullet_train bullettrain_front 🚅
train2 🚆
metro 🚇
light_rail 🚈
station 🚉
tram 🚊
train tram_car 🚋
bus 🚌
oncoming_bus 🚍
trolleybus 🚎
bus_stop busstop 🚏
minibus 🚐
ambulance 🚑
fire_engine 🚒
police_car 🚓
oncoming_police_car 🚔
taxi 🚕
oncoming_taxi 🚖
automobile car red_car 🚗
oncoming_automobile 🚘
blue_car sport_utility_vehicle 🚙
delivery_truck truck 🚚
articulated_lorry 🚛
tractor 🚜
monorail 🚝
mountain_railway 🚞
suspension_railway 🚟
mountain_cableway 🚠
aerial_tramway 🚡
ship 🚢
person_rowing_boat rowboat 🚣
woman_rowing_boat 🚣‍♀️
man_rowing_boat 🚣‍♂️
speedboat 🚤
horizontal_traffic_light traffic_light 🚥
vertical_traffic_light 🚦
construction 🚧
police_car_light rotating_light 🚨
triangular_flag triangular_flag_on_post 🚩
door 🚪
no_entry_sign prohibited 🚫
cigarette smoking 🚬
no_smoking 🚭
litter_in_bin_sign put_litter_in_its_place 🚮
do_not_litter no_littering 🚯
potable_water 🚰
non-potable_water non__potable_water 🚱
bicycle bike 🚲
no_bicycles 🚳
bicyclist person_biking 🚴
woman_biking 🚴‍♀️
man_biking 🚴‍♂️
mountain_bicyclist person_mountain_biking 🚵
woman_mountain_biking 🚵‍♀️
man_mountain_biking 🚵‍♂️
person_walking walking 🚶
woman_walking 🚶‍♀️
man_walking 🚶‍♂️
no_pedestrians 🚷
children_crossing 🚸
mens men’s_room 🚹
womens women’s_room 🚺
restroom 🚻
baby_symbol 🚼
toilet 🚽
water_closet wc 🚾
shower 🚿
bath person_taking_bath 🛀
bathtub 🛁
passport_control 🛂
customs 🛃
baggage_claim 🛄
left_luggage 🛅
couch_and_lamp 🛋
person_in_bed sleeping_accommodation 🛌
shopping_bags 🛍
bellhop_bell 🛎
bed 🛏
place_of_worship 🛐
stop_sign 🛑
shopping_cart 🛒
hindu_temple 🛕
hammer_and_wrench 🛠
shield 🛡
oil_drum 🛢
motorway 🛣
railway_track 🛤
motor_boat 🛥
small_airplane 🛩
airplane_departure 🛫
airplane_arrival airplane_arriving 🛬
passenger_ship 🛳
kick_scooter 🛴
motor_scooter 🛵
canoe 🛶
sled 🛷
flying_saucer 🛸
skateboard 🛹
auto_rickshaw 🛺
orange_circle 🟠
yellow_circle 🟡
green_circle 🟢
purple_circle 🟣
brown_circle 🟤
red_square 🟥
blue_square 🟦
orange_square 🟧
yellow_square 🟨
green_square 🟩
purple_square 🟪
brown_square 🟫
white_heart 🤍
brown_heart 🤎
pinching_hand 🤏
zipper-mouth_face zipper__mouth_face 🤐
money-mouth_face money__mouth_face 🤑
face_with_thermometer 🤒
nerd_face 🤓
thinking_face 🤔
face_with_head-bandage face_with_head__bandage 🤕
robot robot_face 🤖
hugging_face 🤗
sign_of_the_horns 🤘
call_me_hand 🤙
raised_back_of_hand 🤚
left-facing_fist 🤛
right-facing_fist 🤜
handshake 🤝
crossed_fingers 🤞
love-you_gesture 🤟
cowboy_hat_face 🤠
clown_face 🤡
nauseated_face 🤢
rolling_on_the_floor_laughing 🤣
drooling_face 🤤
lying_face 🤥
person_facepalming 🤦
woman_facepalming 🤦‍♀️
man_facepalming 🤦‍♂️
sneezing_face 🤧
face_with_raised_eyebrow 🤨
star-struck 🤩
zany_face 🤪
shushing_face 🤫
face_with_symbols_on_mouth 🤬
face_with_hand_over_mouth 🤭
face_vomiting 🤮
exploding_head 🤯
pregnant_woman 🤰
breast-feeding 🤱
palms_up_together 🤲
selfie 🤳
prince 🤴
man_in_tuxedo 🤵
mrs._claus 🤶
person_shrugging 🤷
woman_shrugging 🤷‍♀️
man_shrugging 🤷‍♂️
person_cartwheeling 🤸
woman_cartwheeling 🤸‍♀️
man_cartwheeling 🤸‍♂️
person_juggling 🤹
woman_juggling 🤹‍♀️
man_juggling 🤹‍♂️
person_fencing 🤺
people_wrestling 🤼
women_wrestling 🤼‍♀️
men_wrestling 🤼‍♂️
person_playing_water_polo 🤽
woman_playing_water_polo 🤽‍♀️
man_playing_water_polo 🤽‍♂️
person_playing_handball 🤾
woman_playing_handball 🤾‍♀️
man_playing_handball 🤾‍♂️
diving_mask 🤿
wilted_flower 🥀
drum 🥁
clinking_glasses 🥂
tumbler_glass 🥃
spoon 🥄
goal_net 🥅
1st_place_medal 🥇
2nd_place_medal 🥈
3rd_place_medal 🥉
boxing_glove 🥊
martial_arts_uniform 🥋
curling_stone 🥌
lacrosse 🥍
softball 🥎
flying_disc 🥏
croissant 🥐
avocado 🥑
cucumber 🥒
bacon 🥓
potato 🥔
carrot 🥕
baguette_bread 🥖
green_salad 🥗
shallow_pan_of_food 🥘
stuffed_flatbread 🥙
glass_of_milk 🥛
peanuts 🥜
kiwi_fruit 🥝
pancakes 🥞
dumpling 🥟
fortune_cookie 🥠
takeout_box 🥡
chopsticks 🥢
bowl_with_spoon 🥣
cup_with_straw 🥤
coconut 🥥
broccoli 🥦
pie 🥧
pretzel 🥨
cut_of_meat 🥩
sandwich 🥪
canned_food 🥫
leafy_green 🥬
mango 🥭
moon_cake 🥮
bagel 🥯
smiling_face_with_3_hearts 🥰
yawning_face 🥱
partying_face 🥳
woozy_face 🥴
hot_face 🥵
cold_face 🥶
pleading_face 🥺
sari 🥻
lab_coat 🥼
goggles 🥽
hiking_boot 🥾
flat_shoe 🥿
crab 🦀
lion_face 🦁
scorpion 🦂
turkey 🦃
unicorn_face 🦄
eagle 🦅
duck 🦆
bat 🦇
shark 🦈
owl 🦉
fox_face 🦊
butterfly 🦋
deer 🦌
gorilla 🦍
lizard 🦎
rhinoceros 🦏
shrimp 🦐
squid 🦑
giraffe 🦒
zebra 🦓
hedgehog 🦔
sauropod 🦕
t-rex 🦖
cricket 🦗
kangaroo 🦘
llama 🦙
peacock 🦚
hippopotamus 🦛
parrot 🦜
raccoon 🦝
lobster 🦞
mosquito 🦟
microbe 🦠
badger 🦡
swan 🦢
sloth 🦥
otter 🦦
orangutan 🦧
skunk 🦨
flamingo 🦩
oyster 🦪
guide_dog 🦮
probing_cane 🦯
red_hair 🦰
curly_hair 🦱
bald 🦲
white_hair 🦳
bone 🦴
leg 🦵
foot 🦶
tooth 🦷
superhero 🦸
supervillain 🦹
safety_vest 🦺
ear_with_hearing_aid 🦻
motorized_wheelchair 🦼
manual_wheelchair 🦽
mechanical_arm 🦾
mechanical_leg 🦿
cheese_wedge 🧀
cupcake 🧁
salt 🧂
beverage_box 🧃
garlic 🧄
onion 🧅
falafel 🧆
waffle 🧇
butter 🧈
mate 🧉
ice 🧊
person_standing 🧍
person_kneeling 🧎
deaf_person 🧏
face_with_monocle 🧐
adult 🧑
people_holding_hands 🧑‍🤝‍🧑
child 🧒
older_adult 🧓
bearded_person 🧔
woman_with_headscarf 🧕
person_in_steamy_room 🧖
woman_in_steamy_room 🧖‍♀️
man_in_steamy_room 🧖‍♂️
person_climbing 🧗
woman_climbing 🧗‍♀️
man_climbing 🧗‍♂️
person_in_lotus_position 🧘
woman_in_lotus_position 🧘‍♀️
man_in_lotus_position 🧘‍♂️
mage 🧙
woman_mage 🧙‍♀️
man_mage 🧙‍♂️
fairy 🧚
woman_fairy 🧚‍♀️
man_fairy 🧚‍♂️
vampire 🧛
woman_vampire 🧛‍♀️
man_vampire 🧛‍♂️
merperson 🧜
mermaid 🧜‍♀️
merman 🧜‍♂️
elf 🧝
woman_elf 🧝‍♀️
man_elf 🧝‍♂️
genie 🧞
woman_genie 🧞‍♀️
man_genie 🧞‍♂️
zombie 🧟
woman_zombie 🧟‍♀️
man_zombie 🧟‍♂️
brain 🧠
orange_heart 🧡
billed_cap 🧢
scarf 🧣
gloves 🧤
coat 🧥
socks 🧦
red_envelope 🧧
firecracker 🧨
jigsaw 🧩
test_tube 🧪
petri_dish 🧫
dna 🧬
compass 🧭
abacus 🧮
fire_extinguisher 🧯
toolbox 🧰
brick 🧱
magnet 🧲
luggage 🧳
lotion_bottle 🧴
thread 🧵
yarn 🧶
safety_pin 🧷
teddy_bear 🧸
broom 🧹
basket 🧺
roll_of_paper 🧻
soap 🧼
sponge 🧽
receipt 🧾
nazar_amulet 🧿
ballet_shoes 🩰
one-piece_swimsuit 🩱
briefs 🩲
shorts 🩳
drop_of_blood 🩸
adhesive_bandage 🩹
stethoscope 🩺
yo-yo 🪀
kite 🪁
ringed_planet 🪐
chair 🪑
razor 🪒
axe 🪓
diya_lamp 🪔
banjo 🪕"

/-- Names of the pictures of people that are also drawn in tones of the skin. -/
def tonedPictures : String := "adult baby baby_angel backhand_index_pointing_down backhand_index_pointing_left
backhand_index_pointing_right backhand_index_pointing_up bearded_person blond-haired_man
blond-haired_person blond-haired_woman boy breast-feeding bride_with_veil call_me_hand child
clapping_hands construction_worker crossed_fingers detective ear elf fairy flexed_biceps
folded_hands girl guard hand_with_fingers_splayed horse_racing index_pointing_up left-facing_fist
love-you_gesture mage man man_artist man_astronaut man_biking man_bouncing_ball man_bowing
man_cartwheeling man_climbing man_construction_worker man_cook man_dancing man_detective man_elf
man_facepalming man_factory_worker man_fairy man_farmer man_firefighter man_frowning
man_gesturing_no man_gesturing_ok man_getting_haircut man_getting_massage man_golfing man_guard
man_health_worker man_in_lotus_position man_in_steamy_room man_in_suit_levitating man_in_tuxedo
man_judge man_juggling man_lifting_weights man_mage man_mechanic man_mountain_biking
man_office_worker man_pilot man_playing_handball man_playing_water_polo man_police_officer
man_pouting man_raising_hand man_rowing_boat man_running man_scientist man_shrugging man_singer
man_student man_surfing man_swimming man_teacher man_technologist man_tipping_hand man_vampire
man_walking man_wearing_turban man_with_chinese_cap mermaid merman merperson middle_finger
mrs._claus nail_polish nose ok_hand old_man old_woman older_adult oncoming_fist open_hands
palms_up_together person_biking person_bouncing_ball person_bowing person_cartwheeling
person_climbing person_facepalming person_frowning person_gesturing_no person_gesturing_ok
person_getting_haircut person_getting_massage person_golfing person_in_bed
person_in_lotus_position person_in_steamy_room person_juggling person_lifting_weights
person_mountain_biking person_playing_handball person_playing_water_polo person_pouting
person_raising_hand person_rowing_boat person_running person_shrugging person_surfing
person_swimming person_taking_bath person_tipping_hand person_walking person_wearing_turban
police_officer pregnant_woman prince princess raised_back_of_hand raised_fist raised_hand
raising_hands right-facing_fist santa_claus selfie sign_of_the_horns snowboarder thumbs_down
thumbs_up vampire victory_hand vulcan_salute waving_hand woman woman_artist woman_astronaut
woman_biking woman_bouncing_ball woman_bowing woman_cartwheeling woman_climbing
woman_construction_worker woman_cook woman_dancing woman_detective woman_elf woman_facepalming
woman_factory_worker woman_fairy woman_farmer woman_firefighter woman_frowning woman_gesturing_no
woman_gesturing_ok woman_getting_haircut woman_getting_massage woman_golfing woman_guard
woman_health_worker woman_in_lotus_position woman_in_steamy_room woman_judge woman_juggling
woman_lifting_weights woman_mage woman_mechanic woman_mountain_biking woman_office_worker
woman_pilot woman_playing_handball woman_playing_water_polo woman_police_officer woman_pouting
woman_raising_hand woman_rowing_boat woman_running woman_scientist woman_shrugging woman_singer
woman_student woman_surfing woman_swimming woman_teacher woman_technologist woman_tipping_hand
woman_vampire woman_walking woman_wearing_turban woman_with_headscarf writing_hand"

/-- Names of flags that stand alone or behind the words for a flag. -/
def flagTable : String := "ascension_island AC
andorra AD
united_arab_emirates AE
afghanistan AF
antigua_&_barbuda AG
anguilla AI
albania AL
armenia AM
angola AO
antarctica AQ
argentina AR
american_samoa AS
austria AT
australia AU
aruba AW
åland_islands AX
azerbaijan AZ
bosnia_&_herzegovina BA
barbados BB
bangladesh BD
belgium BE
burkina_faso BF
bulgaria BG
bahrain BH
burundi BI
benin BJ
st._barthélemy BL
bermuda BM
brunei BN
bolivia BO
caribbean_netherlands BQ
brazil BR
bahamas BS
bhutan BT
bouvet_island BV
botswana BW
belarus BY
belize BZ
canada CA
central_african_republic CF
switzerland CH
côte_d’ivoire CI
cook_islands CK
chile CL
cameroon CM
china CN
colombia CO
clipperton_island CP
costa_rica CR
cuba CU
cape_verde CV
curaçao CW
christmas_island CX
cyprus CY
germany DE
diego_garcia DG
djibouti DJ
denmark DK
dominica DM
dominican_republic DO
algeria DZ
ceuta_&_melilla EA
ecuador EC
estonia EE
egypt EG
western_sahara EH
eritrea ER
spain ES
ethiopia ET
european_union EU
finland FI
fiji FJ
falkland_islands FK
micronesia FM
faroe_islands FO
france FR
gabon GA
united_kingdom GB
grenada GD
georgia GE
french_guiana GF
guernsey GG
ghana GH
gibraltar GI
greenland GL
gambia GM
guinea GN
guadeloupe GP
equatorial_guinea GQ
greece GR
south_georgia_&_south_sandwich_islands GS
guatemala GT
guam GU
guyana GY
heard_&_mcdonald_islands HM
honduras HN
croatia HR
haiti HT
hungary HU
canary_islands IC
indonesia ID
ireland IE
israel IL
isle_of_man IM
india IN
british_indian_ocean_territory IO
iraq IQ
iran IR
iceland IS
italy IT
jersey JE
jamaica JM
jordan JO
kenya KE
kyrgyzstan KG
cambodia KH
kiribati KI
comoros KM
st._kitts_&_nevis KN
north_korea KP
south_korea KR
kuwait KW
cayman_islands KY
kazakhstan KZ
laos LA
lebanon LB
st._lucia LC
liechtenstein LI
sri_lanka LK
liberia LR
lesotho LS
lithuania LT
luxembourg LU
latvia LV
libya LY
morocco MA
monaco MC
moldova MD
montenegro ME
st._martin MF
madagascar MG
marshall_islands MH
macedonia MK
mali ML
mongolia MN
northern_mariana_islands MP
martinique MQ
mauritania MR
montserrat MS
malta MT
mauritius MU
maldives MV
malawi MW
mexico MX
malaysia MY
mozambique MZ
namibia NA
new_caledonia NC
niger NE
norfolk_island NF
nigeria NG
nicaragua NI
netherlands NL
norway NO
nepal NP
nauru NR
niue NU
new_zealand NZ
oman OM
panama PA
peru PE
french_polynesia PF
papua_new_guinea PG
philippines PH
pakistan PK
poland PL
st._pierre_&_miquelon PM
pitcairn_islands PN
puerto_rico PR
palestinian_territories PS
portugal PT
palau PW
paraguay PY
qatar QA
réunion RE
romania RO
serbia RS
russia RU
rwanda RW
saudi_arabia SA
solomon_islands SB
seychelles SC
sudan SD
sweden SE
singapore SG
st._helena SH
slovenia SI
svalbard_&_jan_mayen SJ
slovakia SK
sierra_leone SL
san_marino SM
senegal SN
somalia SO
suriname SR
south_sudan SS
são_tomé_&_príncipe ST
el_salvador SV
sint_maarten SX
syria SY
swaziland SZ
tristan_da_cunha TA
turks_&_caicos_islands TC
chad TD
french_southern_territories TF
togo TG
thailand TH
tajikistan TJ
tokelau TK
turkmenistan TM
tunisia TN
tonga TO
trinidad_&_tobago TT
tuvalu TV
taiwan TW
tanzania TZ
ukraine UA
uganda UG
u.s._outlying_islands UM
united_states US
uruguay UY
uzbekistan UZ
vatican_city VA
st._vincent_&_grenadines VC
venezuela VE
british_virgin_islands VG
u.s._virgin_islands VI
vietnam VN
vanuatu VU
wallis_&_futuna WF
samoa WS
kosovo XK
yemen YE
mayotte YT
south_africa ZA
zambia ZM
zimbabwe ZW"

/-- Names of flags that stand alone. -/
def bareFlagTable : String := "cocos_(keeling)_islands CC
congo_-_kinshasa CD
congo_-_brazzaville CG
czechia CZ
guinea-bissau GW
hong_kong_sar_china HK
myanmar_(burma) MM
macau_sar_china MO
timor-leste TL
united_nations UN"

/-- Names of flags that stand behind the words for a flag. -/
def prefacedFlagTable : String := "cocos__islands CC
congo____kinshasa CD
congo____brazzaville CG
czech_republic CZ
guinea__bissau GW
hong_kong HK
japan JP
myanmar MM
macau MO
timor__leste TL
turkey TR"

end Typestate.Report
